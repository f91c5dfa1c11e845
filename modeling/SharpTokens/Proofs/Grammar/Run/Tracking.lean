import SharpTokens.Proofs.Grammar.Run.Height
import SharpTokens.Proofs.Grammar.Run.Lookahead
import SharpTokens.Proofs.Grammar.Run.Outcome

/-!
# Two parsers under two limits

`Tracks c p q d lo Q` is about two parsers that read the same words, `p` under a limit on nesting
and `q` under a looser one. It says that `p` gives a result, that this result satisfies `Q`, and
that `q` gives the same one with the same faults, unless `p` noted that something is nested too
deep.

With `q` for `p` and one limit for both it says how `p` ends. With two grammars in which the
nonterminals differ it says which of their answers matter. With two limits it says what a looser
limit changes.

Types are looked for under limits of their own at each word (`Loosened.reach`), under which the two
parsers see the same. The postcondition is that of the run under the stricter limit; the other run
is only ever compared with it.
-/

namespace SharpTokens.Grammar

open Grammar.Parser

variable {α β σ : Type}

/-- Words under two limits on nesting, with limits on types at each word under which the same is
recognised there. -/
structure Loosened where
  words : Words
  limit : Nat
  looser : Nat
  le : limit ≤ looser
  few : words.size < Guard.unlimited
  reach : Nat → Nat
  looserReach : Nat → Nat
  types : ∀ i, words.typeEnd? (looserReach i) i = words.typeEnd? (reach i) i
  arguments : ∀ i, words.typeArgumentsEnd? (looserReach i) i = words.typeArgumentsEnd? (reach i) i
  used : ∀ i, words.usingIsStatement (looserReach i) i = words.usingIsStatement (reach i) i

namespace Loosened

def same (words : Words) (limit : Nat) (few : words.size < Guard.unlimited) : Loosened where
  words := words
  limit := limit
  looser := limit
  le := Nat.le_refl limit
  few := few
  reach := fun _ => limit
  looserReach := fun _ => limit
  types := by intro i; rfl
  arguments := by intro i; rfl
  used := by intro i; rfl

variable (c : Loosened)

def input : Input := ⟨c.words, c.limit, c.reach⟩

def looserInput : Input := ⟨c.words, c.looser, c.looserReach⟩

/-- Faults after which nothing was passed over that the looser limit allows. -/
def Calm (more : Array Fault) : Prop :=
  c.limit = c.looser ∨ ∀ f ∈ more, ∀ limit, f.cause ≠ .tooDeep limit

/-- A parser may start from the word at `lo` inside `d` constructs: each of them was opened by a
word of its own, and the limit allowed it. -/
structure Ready (d lo : Nat) : Prop where
  depth_le : d ≤ lo
  within : d ≤ c.limit
  le_size : lo ≤ c.words.size

/-- How high a tree may be for what the limit still allows inside `d` constructs. -/
def room (d : Nat) : Nat := 16 * (c.limit - d)

variable {c} {d lo hi : Nat} {more more' : Array Fault}

/-- What is calm as a whole is calm in its first part. -/
theorem Calm.left (h : c.Calm (more ++ more')) : c.Calm more := by
  rcases h with h | h
  · exact .inl h
  · exact .inr fun f hf => h f (Array.mem_append_left _ hf)

/-- And in its second part. -/
theorem Calm.right (h : c.Calm (more ++ more')) : c.Calm more' := by
  rcases h with h | h
  · exact .inl h
  · exact .inr fun f hf => h f (Array.mem_append_right _ hf)

/-- Further on in the text, in as many constructs. -/
theorem Ready.mono (h : c.Ready d lo) (hlo : lo ≤ hi) (hhi : hi ≤ c.words.size) : c.Ready d hi :=
  ⟨Nat.le_trans h.depth_le hlo, h.within, hhi⟩

/-- Another construct is opened, and a word is taken for it. -/
theorem Ready.deeper (h : c.Ready d lo) (hd : d < c.limit) (hlo : lo < hi)
    (hhi : hi ≤ c.words.size) :
    c.Ready (d + 1) hi :=
  ⟨Nat.succ_le_of_lt (Nat.lt_of_le_of_lt h.depth_le hlo), hd, hhi⟩

/-- There are fewer open constructs than words, so counting them never comes to its end. -/
theorem Ready.lt_unlimited (h : c.Ready d lo) : d < Guard.unlimited :=
  Nat.lt_of_le_of_lt (Nat.le_trans h.depth_le h.le_size) c.few

/-- One level deeper there is room for sixteen nodes less. -/
theorem room_succ (hd : d < c.limit) : c.room (d + 1) + 16 = c.room d := by
  unfold room
  omega

theorem low_skipped {ws : Words} {k : Nat} : Low (k + 1) (skipped ws lo) := Low.leaf

/-- What a parser gives under the two limits, of which the first is stricter. -/
def Tracks (c : Loosened) (p q : Parser α) (d lo : Nat) (Q : α → Nat → Prop) : Prop :=
  ∃ a hi more, Gives p c.input d lo a hi more ∧ hi ≤ c.words.size ∧ Q a hi ∧
    (c.Calm more → Gives q c.looserInput d lo a hi more)

namespace Tracks

variable {p q : Parser α} {f f' : α → Parser β} {Q : α → Nat → Prop} {R : β → Nat → Prop} {a : α}

theorem mono (h : Tracks c p q d lo Q) {Q' : α → Nat → Prop}
    (hQ : ∀ a hi, hi ≤ c.words.size → Q a hi → Q' a hi) :
    Tracks c p q d lo Q' := by
  obtain ⟨a, hi, more, hp, hhi, ha, hq⟩ := h
  exact ⟨a, hi, more, hp, hhi, hQ a hi hhi ha, hq⟩

/-- Where the first parsers agree, the second ones start alike. -/
theorem bind (h : Tracks c p q d lo Q)
    (hf : ∀ a mid, mid ≤ c.words.size → Q a mid → Tracks c (f a) (f' a) d mid R) :
    Tracks c (p >>= f) (q >>= f') d lo R := by
  obtain ⟨a, mid, more, hp, hmid, ha, hq⟩ := h
  obtain ⟨b, hi, more', hp', hhi, hb, hq'⟩ := hf a mid hmid ha
  refine ⟨b, hi, more ++ more', hp.bind hp', hhi, hb, fun hcalm => ?_⟩
  exact (hq hcalm.left).bind (hq' hcalm.right)

/-- A parser that does the same under every limit. -/
theorem steady (h : ∀ limit, Gives p ⟨c.words, limit⟩ d lo a hi more) (hhi : hi ≤ c.words.size)
    (ha : Q a hi) :
    Tracks c p p d lo Q :=
  ⟨a, hi, more, h c.input.limit, hhi, ha, fun _ => h c.looserInput.limit⟩

/-- Goes on after a parser that does the same under every limit. -/
theorem after {mid : Nat} (h : ∀ limit, Gives p ⟨c.words, limit⟩ d lo a mid more)
    (hf : Tracks c (f a) (f' a) d mid R) : Tracks c (p >>= f) (p >>= f') d lo R := by
  obtain ⟨b, hi, more', hp', hhi, hb, hq'⟩ := hf
  exact ⟨b, hi, more ++ more', (h c.input.limit).bind hp', hhi, hb, fun hcalm =>
    (h c.looserInput.limit).bind (hq' hcalm.right)⟩

theorem pure (hlo : lo ≤ c.words.size) (ha : Q a lo) :
    Tracks c (Pure.pure a) (Pure.pure a) d lo Q :=
  steady (fun _ => Gives.pure) hlo ha

/-- Both parsers take the same branch, since the condition is the same. -/
theorem ite {P : Prop} [Decidable P] {p' q' : Parser α} (ht : P → Tracks c p q d lo Q)
    (hf : ¬P → Tracks c p' q' d lo Q) :
    Tracks c (if P then p else p') (if P then q else q') d lo Q := by
  split
  · exact ht ‹_›
  · exact hf ‹_›

/-! ### Words

What these do depends on the words only, and `lookWithin` on types besides. -/

theorem here {f f' : Nat → Parser β} (hf : Tracks c (f lo) (f' lo) d lo R) :
    Tracks c (Parser.here >>= f) (Parser.here >>= f') d lo R :=
  after (fun _ => Gives.here) hf

theorem look {g : Words → Nat → α} (hf : Tracks c (f (g c.words lo)) (f' (g c.words lo)) d lo R) :
    Tracks c (Parser.look g >>= f) (Parser.look g >>= f') d lo R :=
  after (a := g c.words lo) (fun _ => Gives.look g) hf

/-- What is looked for has to be the same under both limits. -/
theorem lookWithin {g : Words → Nat → Nat → α}
    (hg : g c.words (c.looserReach lo) lo = g c.words (c.reach lo) lo)
    (hf : Tracks c (f (g c.words (c.reach lo) lo)) (f' (g c.words (c.reach lo) lo)) d lo R) :
    Tracks c (Parser.lookWithin g >>= f) (Parser.lookWithin g >>= f') d lo R := by
  obtain ⟨b, hi, more, hp, hhi, hb, hq⟩ := hf
  refine ⟨b, hi, more, (Gives.lookWithin g).andThen hp, hhi, hb, fun hcalm => ?_⟩
  have hlook : Gives (Parser.lookWithin g) c.looserInput d lo (g c.words (c.looserReach lo) lo) lo
      #[] := Gives.lookWithin g
  rw [hg] at hlook
  exact hlook.andThen (hq hcalm)

theorem moveTo {f f' : Unit → Parser β} {i : Nat} (hf : Tracks c (f ()) (f' ()) d i R) :
    Tracks c (Parser.moveTo i >>= f) (Parser.moveTo i >>= f') d lo R :=
  after (fun _ => Gives.moveTo i) hf

theorem bump {f f' : Unit → Parser β} (hf : Tracks c (f ()) (f' ()) d (lo + 1) R) :
    Tracks c (Parser.bump >>= f) (Parser.bump >>= f') d lo R :=
  after (fun _ => Gives.bump) hf

theorem eat {k : Kind} {f f' : Bool → Parser β}
    (ht : c.words.is lo k = true → Tracks c (f true) (f' true) d (lo + 1) R)
    (hf : c.words.is lo k = false → Tracks c (f false) (f' false) d lo R) :
    Tracks c (Parser.eat k >>= f) (Parser.eat k >>= f') d lo R := by
  cases hk : c.words.is lo k with
  | true => exact after (fun _ => Gives.eat hk) (ht hk)
  | false => exact after (fun _ => Gives.eat_other hk) (hf hk)

theorem skipGroup {f f' : Unit → Parser β}
    (hf : Tracks c (f ()) (f' ()) d (c.words.pastGroup lo) R) :
    Tracks c (Parser.skipGroup >>= f) (Parser.skipGroup >>= f') d lo R := by
  have hskip : ∀ limit, Gives Parser.skipGroup ⟨c.words, limit⟩ d lo ()
      (c.words.pastGroup lo) #[] :=
    fun _ => Gives.skipGroup
  exact after hskip hf

/-! ### Faults

None of these is about depth, so both parsers go on. -/

theorem fault {f f' : Unit → Parser β} {cause : SyntaxError} (hf : Tracks c (f ()) (f' ()) d lo R) :
    Tracks c (Parser.fault cause >>= f) (Parser.fault cause >>= f') d lo R :=
  after (fun _ => Gives.fault cause) hf

theorem expected {f f' : Unit → Parser β} {what : Expectation}
    (hf : Tracks c (f ()) (f' ()) d lo R) :
    Tracks c (Parser.expected what >>= f) (Parser.expected what >>= f') d lo R := by
  obtain ⟨cause, -, h⟩ := @Gives.expected c.input lo what
  exact after (fun limit => h limit d) hf

/-! ### Nodes -/

theorem node {kind : NodeKind} {first : Nat} {name : Option Name} {m : Modifiers}
    {children : List Node} {Q : Node → Nat → Prop} (hlo : lo ≤ c.words.size)
    (h : Q (.node ⟨kind, first, lo, name, m⟩ children) lo) :
    Tracks c (Parser.node kind first name m children)
      (Parser.node kind first name m children) d lo Q :=
  steady (fun _ => Gives.node _ _ _ _ _) hlo h

theorem andNode {kind : NodeKind} {first : Nat} {name : Option Name} {m : Modifiers}
    {children : List Node} {f f' : Node → Parser β}
    (hf : Tracks c (f (.node ⟨kind, first, lo, name, m⟩ children))
      (f' (.node ⟨kind, first, lo, name, m⟩ children)) d lo R) :
    Tracks c (Parser.node kind first name m children >>= f)
      (Parser.node kind first name m children >>= f') d lo R :=
  after (fun _ => Gives.node _ _ _ _ _) hf

/-! ### Nesting

Under the stricter limit a construct may be refused where the looser one allows it. That is a fault
about depth, after which nothing more is said of the other parser. -/

/-- The stricter limit refuses: unless the limits are the same, there is nothing to compare. -/
theorem refused {p q : Parser α} (h : c.Ready d lo) (ha : Q a (c.words.pastGroup lo))
    (hp : Gives p c.input d lo a (c.words.pastGroup lo) #[⟨.tooDeep c.limit, lo⟩])
    (hq : c.looser = c.limit →
      Gives q c.looserInput d lo a (c.words.pastGroup lo) #[⟨.tooDeep c.looser, lo⟩]) :
    Tracks c p q d lo Q := by
  refine ⟨a, _, _, hp, Words.pastGroup_le_size h.le_size, ha, fun hcalm => ?_⟩
  rcases hcalm with heq | hnone
  · rw [heq]
    exact hq heq.symm
  · exact absurd rfl (hnone ⟨.tooDeep c.limit, lo⟩ (by simp) c.limit)

/-- A construct one level deeper. Where it is refused, the faults say so. -/
theorem deeper {p q : Parser (List Node)} {Q : List Node → Nat → Prop} (h : c.Ready d lo)
    (hskipped : Q [skipped c.words lo] (c.words.pastGroup lo))
    (hp : d < c.limit → Tracks c p q (d + 1) lo Q) :
    Tracks c (Parser.deeper p) (Parser.deeper q) d lo Q := by
  have hd := h.lt_unlimited
  by_cases hdeep : d < c.limit
  · obtain ⟨ts, hi, more, hp, hhi, hts, hq⟩ := hp hdeep
    refine ⟨ts, hi, more, hp.deeper hdeep hd, hhi, hts, fun hcalm => ?_⟩
    exact (hq hcalm).deeper (Nat.lt_of_lt_of_le hdeep c.le) hd
  · apply refused h hskipped (.deeper_refused (Nat.le_of_not_lt hdeep) hd)
    intro heq
    exact .deeper_refused (Nat.le_trans (Nat.le_of_eq heq) (Nat.le_of_not_lt hdeep)) hd

/-- The same for a construct that is one node. -/
theorem deeperNode {p q : Parser Node} {Q : Node → Nat → Prop} (h : c.Ready d lo)
    (hskipped : Q (skipped c.words lo) (c.words.pastGroup lo))
    (hp : d < c.limit → Tracks c p q (d + 1) lo Q) :
    Tracks c (Parser.deeperNode p) (Parser.deeperNode q) d lo Q := by
  have hd := h.lt_unlimited
  by_cases hdeep : d < c.limit
  · obtain ⟨t, hi, more, hp, hhi, ht, hq⟩ := hp hdeep
    refine ⟨t, hi, more, hp.deeperNode hdeep hd, hhi, ht, fun hcalm => ?_⟩
    exact (hq hcalm).deeperNode (Nat.lt_of_lt_of_le hdeep c.le) hd
  · apply refused h hskipped (.deeperNode_refused (Nat.le_of_not_lt hdeep) hd)
    intro heq
    exact .deeperNode_refused (Nat.le_trans (Nat.le_of_eq heq) (Nat.le_of_not_lt hdeep)) hd

/-! ### Repetition

A step that goes on takes a word, and an invariant holds between steps. -/

/-- A step that goes on has taken a word and satisfies `I`; one that is done satisfies `D`. -/
def Moves (I D : σ → Nat → Prop) (lo : Nat) : Step σ → Nat → Prop
  | .more found, hi => lo < hi ∧ I found hi
  | .done found, hi => lo ≤ hi ∧ D found hi

/-- A repetition comes to an end, by induction on the number of words left. -/
theorem repeats {step step' : σ → Parser (Step σ)} {found : σ} (I D : σ → Nat → Prop)
    (hlo : lo ≤ c.words.size) (hfound : I found lo)
    (hstep : ∀ found mid, lo ≤ mid → mid ≤ c.words.size → I found mid →
      Tracks c (step found) (step' found) d mid (Moves I D mid)) :
    ∃ r hi more, Repeats step c.input d found lo r hi more ∧ hi ≤ c.words.size ∧
      (lo ≤ hi ∧ D r hi) ∧
      (c.Calm more → Repeats step' c.looserInput d found lo r hi more) := by
  induction hn : c.words.size - lo using Nat.strongRecOn generalizing found lo with
  | ind n ih =>
      obtain ⟨r, mid, more, hp, hmid, hr, hq⟩ := hstep found lo (Nat.le_refl lo) hlo hfound
      cases r with
      | done r => exact ⟨r, mid, more, .done hp, hmid, hr, fun hcalm => .done (hq hcalm)⟩
      | more found' =>
          obtain ⟨hlt, hfound'⟩ := hr
          obtain ⟨r, hi, more', hp', hhi, ⟨hle, hr⟩, hq'⟩ :=
            ih (c.words.size - mid) (by omega) hmid hfound'
              (fun found k hk => hstep found k (by omega)) rfl
          refine ⟨r, hi, more ++ more', .more hp hlt hmid hp', hhi, ⟨by omega, hr⟩, fun hcalm => ?_⟩
          exact .more (hq hcalm.left) hlt hmid (hq' hcalm.right)

/-- An invariant of the steps holds where a loop ends. -/
theorem loop {step step' : σ → Parser (Step σ)} {found : σ} (I D : σ → Nat → Prop)
    (hlo : lo ≤ c.words.size) (hfound : I found lo)
    (hstep : ∀ found mid, lo ≤ mid → mid ≤ c.words.size → I found mid →
      Tracks c (step found) (step' found) d mid (Moves I D mid)) :
    Tracks c (Parser.loop step found) (Parser.loop step' found) d lo fun r hi => lo ≤ hi ∧
      D r hi := by
  obtain ⟨r, hi, more, hp, hhi, hr, hq⟩ := repeats I D hlo hfound hstep
  exact ⟨r, hi, more, hp.loop hlo, hhi, hr, fun hcalm => (hq hcalm).loop hlo⟩

/-- A step that goes on has taken a word. -/
abbrev Onward (lo : Nat) : Step σ → Nat → Prop := Moves (fun _ _ => True) (fun _ _ => True) lo

/-- Where only progress matters. -/
theorem onward {step step' : σ → Parser (Step σ)} {found : σ} (hlo : lo ≤ c.words.size)
    (hstep : ∀ found mid, lo ≤ mid → mid ≤ c.words.size →
      Tracks c (step found) (step' found) d mid (Onward mid)) :
    Tracks c (Parser.loop step found) (Parser.loop step' found) d lo fun _ hi => lo ≤ hi := by
  refine (loop (fun _ _ => True) (fun _ _ => True) hlo trivial ?_).mono fun _ _ _ h => h.1
  exact fun found mid hle hmid _ => hstep found mid hle hmid

/-- A step that goes on has taken a word and adds nodes that satisfy `P`; one that is done adds none
and ends at a word that satisfies `D`. -/
def Collects (P : Node → Prop) (D : Nat → Prop) (found : Array Node) (lo : Nat) :
    Step (Array Node) → Nat → Prop
  | .more r, hi => lo < hi ∧ ∃ ts, r.toList = found.toList ++ ts ∧ ∀ t ∈ ts, P t
  | .done r, hi => lo ≤ hi ∧ D hi ∧ r = found

/-- Where nodes are collected, of which each satisfies `P`. -/
theorem collect {step step' : Array Node → Parser (Step (Array Node))} {found : Array Node}
    (P : Node → Prop) (D : Nat → Prop) (hlo : lo ≤ c.words.size) (hfound : ∀ t ∈ found.toList, P t)
    (hstep : ∀ found mid, lo ≤ mid → mid ≤ c.words.size →
      Tracks c (step found) (step' found) d mid (Collects P D found mid)) :
    Tracks c (Parser.loop step found) (Parser.loop step' found) d lo fun r hi =>
      lo ≤ hi ∧ D hi ∧ ∀ t ∈ r.toList, P t := by
  apply loop (fun r _ => ∀ t ∈ r.toList, P t) _ hlo hfound
  intro found mid hlo hmid hfound
  apply (hstep found mid hlo hmid).mono
  rintro (r | r) hi - hr
  · obtain ⟨hlt, ts, heq, hts⟩ := hr
    refine ⟨hlt, ?_⟩
    show ∀ t ∈ r.toList, P t
    rw [heq]
    exact List.forall_mem_append.2 ⟨hfound, hts⟩
  · obtain ⟨hle, hdone, rfl⟩ := hr
    exact ⟨hle, hdone, hfound⟩

/-- Nodes are added to those found before. -/
theorem collects_more {P : Node → Prop} {D : Nat → Prop} {found : Array Node} {ts : List Node}
    (hlt : lo < hi) (hts : ∀ t ∈ ts, P t) : Collects P D found lo (.more (found ++ ts)) hi :=
  ⟨hlt, ts, Array.toList_appendList, hts⟩

theorem collects_push {P : Node → Prop} {D : Nat → Prop} {found : Array Node} {t : Node}
    (hlt : lo < hi) (ht : P t) : Collects P D found lo (.more (found.push t)) hi :=
  ⟨hlt, [t], Array.toList_push, by simpa using ht⟩

end Tracks

end Loosened

namespace Parser

open Loosened

variable {c : Loosened} {d lo hi : Nat}

theorem skipStep_tracks (holds : Words → Nat → Kind → Bool) (u : Unit) (hlo : lo ≤ c.words.size) :
    Tracks c (skipStep holds u) (skipStep holds u) d lo
      (Tracks.Moves (fun _ _ => True) (fun _ hi => (c.words.kind? hi).filter (holds c.words hi) =
        none) lo) := by
  refine .look ?_
  split
  · rename_i k hk
    have hlt := Words.lt_size_of_kind? (Option.filter_eq_some_iff.1 hk).1
    exact .bump (.pure hlt ⟨Nat.lt_succ_self lo, trivial⟩)
  · rename_i hk
    exact .pure hlo ⟨Nat.le_refl lo, hk⟩

/-- It stops where the condition does not hold. -/
theorem skipWhile_tracks (holds : Words → Nat → Kind → Bool) (hlo : lo ≤ c.words.size) :
    Tracks c (skipWhile holds) (skipWhile holds) d lo fun _ hi =>
      lo ≤ hi ∧ (c.words.kind? hi).filter (holds c.words hi) = none :=
  .loop (fun _ _ => True) _ hlo trivial fun u _ _ hmid _ => skipStep_tracks holds u hmid

theorem skipGroupStep_tracks (holds : Words → Nat → Kind → Bool) (u : Unit)
    (hlo : lo ≤ c.words.size) :
    Tracks c (skipGroupStep holds u) (skipGroupStep holds u) d lo (Tracks.Onward lo) := by
  refine .look ?_
  split
  · rename_i k hk
    have hlt := Words.lt_size_of_kind? (Option.filter_eq_some_iff.1 hk).1
    exact .skipGroup (.pure (Words.pastGroup_le_size hlo) ⟨Words.lt_pastGroup hlt, trivial⟩)
  · exact .pure hlo ⟨Nat.le_refl lo, trivial⟩

theorem skipGroupsWhile_tracks (holds : Words → Nat → Kind → Bool) (hlo : lo ≤ c.words.size) :
    Tracks c (skipGroupsWhile holds) (skipGroupsWhile holds) d lo fun _ hi => lo ≤ hi :=
  .onward hlo fun u _ _ hmid => skipGroupStep_tracks holds u hmid

theorem eat_tracks (k : Kind) (hlo : lo ≤ c.words.size) :
    Tracks c (eat k) (eat k) d lo fun _ hi => lo ≤ hi := by
  refine .look (.ite (fun hk => ?_) fun _ => .pure hlo (Nat.le_refl lo))
  exact .bump (.pure (Words.lt_size_of_is hk) (Nat.le_succ lo))

theorem expected_tracks (what : Expectation) (hlo : lo ≤ c.words.size) :
    Tracks c (expected what) (expected what) d lo fun _ hi => hi = lo := by
  obtain ⟨cause, -, h⟩ := @Gives.expected c.input lo what
  exact .steady (fun limit => h limit d) hlo rfl

theorem expect_tracks (k : Kind) (hlo : lo ≤ c.words.size) :
    Tracks c (expect k) (expect k) d lo fun _ hi => lo ≤ hi := by
  refine .eat (fun hk => ?_) fun _ => ?_
  · exact .pure (Words.lt_size_of_is hk) (Nat.le_succ lo)
  · exact .expected (.pure hlo (Nat.le_refl lo))

/-- The word ahead is taken, if there is one. -/
theorem unexpected_tracks (hlo : lo ≤ c.words.size) :
    Tracks c unexpected unexpected d lo fun _ hi => lo ≤ hi ∧ (lo < c.words.size → lo < hi) := by
  refine .look ?_
  split
  · rename_i k hk
    have hlt := Words.lt_size_of_kind? hk
    exact .fault (.steady (fun _ => Gives.bump) hlt ⟨Nat.le_succ lo, fun _ => Nat.lt_succ_self lo⟩)
  · rename_i hk
    refine .pure hlo ⟨Nat.le_refl lo, fun hlt => ?_⟩
    obtain ⟨k, hk'⟩ := Words.exists_kind? hlt
    exact absurd (hk.symm.trans hk') (by simp)

theorem missingName_tracks (hlo : lo ≤ c.words.size) :
    Tracks c missingName missingName d lo fun _ hi => lo ≤ hi :=
  .here (.pure hlo (Nat.le_refl lo))

/-- A name is one identifier, or nothing if there is none. -/
theorem name_takes (hlo : lo ≤ c.words.size) :
    Tracks c name name d lo fun _ hi =>
      c.words.is lo .ident = true ∧ hi = lo + 1 ∨ c.words.is lo .ident = false ∧ hi = lo := by
  refine .here (.look (.ite (fun hident => ?_) fun hident => ?_))
  · exact .bump (.look (.pure (Words.lt_size_of_is hident) (.inl ⟨hident, rfl⟩)))
  · exact .expected (.here (.pure hlo (.inr ⟨by simpa using hident, rfl⟩)))

/-- An identifier is taken, if it is ahead. -/
theorem name_tracks (hlo : lo ≤ c.words.size) :
    Tracks c name name d lo fun _ hi => lo ≤ hi ∧ (c.words.is lo .ident = true → lo < hi) := by
  refine (name_takes hlo).mono ?_
  rintro _ hi - (⟨-, rfl⟩ | ⟨hident, rfl⟩)
  · exact ⟨Nat.le_succ lo, fun _ => Nat.lt_succ_self lo⟩
  · exact ⟨Nat.le_refl hi, fun h => absurd h (by simp [hident])⟩

/-- A node that takes no word is dropped, and the word ahead is passed over. -/
theorem orUnexpected_tracks {p q : Parser Node} {P : Node → Prop} (hlo : lo < c.words.size)
    (h : Tracks c p q d lo fun t hi => lo ≤ hi ∧ P t) :
    Tracks c (orUnexpected p) (orUnexpected q) d lo fun ts hi => lo < hi ∧ ∀ t ∈ ts, P t := by
  refine .here (h.bind fun t mid hmid ht => .here (.ite (fun heq => ?_) fun hne => ?_))
  · refine (unexpected_tracks hmid).bind fun _ hi hhi h => .pure hhi ⟨?_, by simp⟩
    rw [heq] at h
    exact h.2 hlo
  · exact .pure hmid ⟨Nat.lt_of_le_of_ne ht.1 (Ne.symm hne), by simpa using ht.2⟩

/-- An item between braces, or the closing brace. -/
theorem bracedStep_tracks {item item' : Kind → Parser (List Node)} {P : Node → Prop}
    {found : Array Node} (hlo : lo ≤ c.words.size)
    (hitem : ∀ k, c.words.kind? lo = some k → k ≠ .rbrace →
      Tracks c (item k) (item' k) d lo fun ts hi => lo < hi ∧ ∀ t ∈ ts, P t) :
    Tracks c (bracedStep item found) (bracedStep item' found) d lo
      (Tracks.Collects P (fun _ => True) found lo) := by
  refine .look ?_
  split
  · exact .expected (.pure hlo ⟨Nat.le_refl lo, trivial, rfl⟩)
  · rename_i hk
    exact .bump (.pure (Words.lt_size_of_kind? hk) ⟨Nat.le_succ lo, trivial, rfl⟩)
  · rename_i k hne hk
    refine (hitem k hk hne).bind fun ts hi hhi hts => ?_
    exact .pure hhi (Tracks.collects_more hts.1 hts.2)

/-- The items between braces are read behind the opening one. -/
theorem braced_tracks {item item' : Kind → Parser (List Node)} {P : Node → Prop}
    (hlo : lo < c.words.size) (hitem : ∀ k mid, lo < mid → mid < c.words.size →
      c.words.kind? mid = some k →
      Tracks c (item k) (item' k) d mid fun ts hi => mid < hi ∧ ∀ t ∈ ts, P t) :
    Tracks c (braced item) (braced item') d lo fun ts hi => lo < hi ∧ ∀ t ∈ ts, P t := by
  refine .bump (Tracks.bind (.collect P (fun _ => True) hlo (by simp) ?_) ?_)
  · intro found mid hmid hsize
    exact bracedStep_tracks hsize fun k hk _ => hitem k mid hmid (Words.lt_size_of_kind? hk) hk
  · exact fun found hi hhi hfound => .pure hhi ⟨hfound.1, hfound.2.2⟩

end Parser

end SharpTokens.Grammar
