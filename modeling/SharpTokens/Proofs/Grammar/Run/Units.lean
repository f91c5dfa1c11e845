import SharpTokens.Grammar.Unit
import SharpTokens.Proofs.Grammar.Run.Members

/-!
# Runs of whole texts

Namespaces and texts, and the recursion of the grammar. From one nonterminal the grammar comes to
another one only after it took a word, or without one to a nonterminal of a lower `rank`. So a
nonterminal depends on what is read after it (`body_tracks`), and how often the grammar is unfolded
does not matter as long as it is often enough (`unfolding_tracks`).
-/

namespace SharpTokens.Grammar

open Grammar.Parser Loosened

variable {c : Loosened} {d lo start : Nat}

/-! ## Directives and dotted names

A name is made of identifiers and dots and nothing else (`Words.Dotted`). With this the words of a
namespace without braces are known up to its semicolon, which is how it is said where namespaces
nest without regard to the limit. -/

/-- There is a word for each one that is looked at. -/
theorem Words.lt_size_of_startsUsing {ws : Words} (h : ws.startsUsing lo = true) :
    lo < ws.size ∧ (ws.is lo .ident = true → lo + 1 < ws.size) := by
  unfold startsUsing at h
  split at h
  · rename_i hk
    exact ⟨lt_size_of_kind? hk, by simp [is, hk]⟩
  · rename_i hk
    exact ⟨lt_size_of_kind? hk, by simp [is, hk]⟩
  · rename_i hk
    simp only [Bool.and_eq_true] at h
    exact ⟨lt_size_of_kind? hk, fun _ => lt_size_of_is h.2⟩
  · cases h

theorem usingDirective_tracks (h : c.words.startsUsing lo = true) :
    Tracks c usingDirective usingDirective d lo fun t hi => lo < hi ∧ Low 1 t := by
  obtain ⟨hlo, hident⟩ := Words.lt_size_of_startsUsing h
  refine .here (.look ?_)
  extract_lets rest
  have hrest : ∀ u n, n < c.words.size → lo ≤ n → Tracks c (rest u) (rest u) d n fun t hi => lo <
      hi ∧ Low 1 t := by
    intro u n hn hle
    refine .bump ((skipWhile_tracks _ hn).bind fun _ m hm hskip => ?_)
    refine (expect_tracks .semi hm).bind fun _ hi hhi hle' => .node hhi ⟨by omega, .leaf⟩
  exact .ite (fun hk => .bump (hrest () _ (hident hk) (Nat.le_succ lo))) fun _ =>
    hrest () lo hlo (Nat.le_refl lo)

/-- The words from `lo` on and before `hi` are identifiers and dots. -/
def Words.Dotted (ws : Words) (lo hi : Nat) : Prop :=
  ∀ i, lo ≤ i → i < hi → ws.isAny i [.ident, .dot] = true

/-- One part of a name after another. -/
theorem Words.Dotted.append {ws : Words} {lo mid hi : Nat} (h : ws.Dotted lo mid)
    (h' : ws.Dotted mid hi) :
    ws.Dotted lo hi := fun i hlo hhi => by
  rcases Nat.lt_or_ge i mid with hmid | hmid
  · exact h i hlo hmid
  · exact h' i hmid hhi

theorem Words.dotted_self (ws : Words) (lo : Nat) : ws.Dotted lo lo := fun _ hlo hhi => by omega

theorem Words.dotted_succ {ws : Words} {k : Kind} (hk : ws.is lo k = true)
    (hmem : k ∈ [.ident, .dot]) :
    ws.Dotted lo (lo + 1) := by
  intro i hlo hhi
  obtain rfl : i = lo := by omega
  exact isAny_eq_true.2 ⟨k, hmem, is_eq_true.1 hk⟩

theorem name_dotted (hlo : lo ≤ c.words.size) :
    Tracks c name name d lo fun _ hi => lo ≤ hi ∧ c.words.Dotted lo hi := by
  refine (name_takes hlo).mono ?_
  rintro _ hi - (⟨hident, rfl⟩ | ⟨-, rfl⟩)
  · exact ⟨Nat.le_succ lo, Words.dotted_succ hident (by simp)⟩
  · exact ⟨Nat.le_refl hi, c.words.dotted_self hi⟩

/-- A dot and a name make a longer name. -/
theorem dottedStep_tracks (first : Nat) (found : Node) (hlo : lo ≤ c.words.size) :
    Tracks c (dottedStep first found) (dottedStep first found) d lo
      (Tracks.Moves (fun t hi => (DottedLow found → DottedLow t) ∧ c.words.Dotted lo hi)
        (fun t hi => t = found ∧ hi = lo) lo) := by
  refine .eat (fun hdot => .here ?_) fun _ => .pure hlo ⟨Nat.le_refl lo, rfl, rfl⟩
  refine (name_dotted (Words.lt_size_of_is hdot)).bind fun part mid hmid hpart =>
    .andNode (.andNode ?_)
  exact .pure hmid ⟨hpart.1, DottedLow.dot rfl, (Words.dotted_succ hdot (by simp)).append hpart.2⟩

/-- A name of any number of parts is at most two high, and takes identifiers and dots only. -/
theorem qualifiedName_tracks (hlo : lo ≤ c.words.size) :
    Tracks c qualifiedName qualifiedName d lo fun t hi => lo ≤ hi ∧ Low 2 t ∧
      c.words.Dotted lo hi := by
  refine .here ((name_dotted hlo).bind fun name n hn hname => .andNode ?_)
  refine Tracks.mono (.loop (fun t hi => DottedLow t ∧ c.words.Dotted lo hi)
    (fun t hi => DottedLow t ∧ c.words.Dotted lo hi) hn ⟨.inl .leaf, hname.2⟩ ?_) ?_
  · intro found mid _ hmid hfound
    refine (dottedStep_tracks lo found hmid).mono ?_
    rintro (t | t) hi - ht
    · exact ⟨ht.1, ht.2.1 hfound.1, hfound.2.append ht.2.2⟩
    · obtain ⟨hle, rfl, rfl⟩ := ht
      exact ⟨hle, hfound⟩
  · exact fun t hi _ ht => ⟨Nat.le_trans hname.1 ht.1, ht.2.1.low, ht.2.2⟩

/-- The words before `hi` are in a namespace without braces, which starts at `lo`. -/
def Words.FileScoped (ws : Words) (lo hi : Nat) : Prop :=
  ∃ i, lo < i ∧ i < hi ∧ ws.Dotted (lo + 1) i ∧ ws.is i .semi = true

namespace Nonterminals

variable {g g' : Nonterminals} {may : Symbol → Nat → Prop}

/-! ## Namespaces

A namespace without braces goes on to the end of the text, in the same construct. Its members are
namespaces and members again, which is one of the ways to nest without regard to the limit. -/

/-- A namespace by its keyword, and otherwise a member. -/
theorem namespaceMember_tracks (hg : Alike c g g' start d may) (h : c.Ready d lo)
    (hlo : lo < c.words.size) (hstart : start < lo)
    (hmay : may .namespaceDeclaration lo ∧ may .member lo) :
    Tracks c g.namespaceMember g'.namespaceMember d lo fun ts hi => lo < hi ∧
      ∀ t ∈ ts, c.Declared d t := by
  refine memberOrRecover_tracks hlo (.look ?_)
  split
  · rename_i hk
    refine (hg.namespaceDeclaration h hstart (Words.is_eq_true.2 hk) hmay.1).bind fun t hi hhi ht =>
      .pure hhi ?_
    exact ⟨Nat.le_of_lt ht.1, by simpa using ht.2⟩
  · exact .bump (.pure hlo ⟨Nat.le_succ lo, by simp⟩)
  · refine .look (.ite (fun husing => ?_) fun _ => hg.member h hstart hmay.2)
    refine (usingDirective_tracks husing).bind fun t hi hhi ht => .pure hhi ?_
    exact ⟨Nat.le_of_lt ht.1, by simpa using (ht.2.mono (by omega)).but⟩

theorem restStep_tracks (hg : Alike c g g' start d may) (found : Array Node) (h : c.Ready d lo)
    (hstart : start < lo) (hmay : may .namespaceDeclaration lo ∧ may .member lo) :
    Tracks c (g.restStep found) (g'.restStep found) d lo
      (Tracks.Collects (c.Declared d) (fun _ => True) found lo) := by
  refine .look ?_
  split
  · exact .pure h.le_size ⟨Nat.le_refl lo, trivial, rfl⟩
  · have hlt : lo < c.words.size := Words.lt_size_of_kind? ‹_›
    exact (unexpected_tracks h.le_size).bind fun _ hi hhi hle => .pure hhi ⟨hle.2 hlt, [], by simp⟩
  · refine (namespaceMember_tracks hg h (Words.lt_size_of_kind? ‹_›) hstart hmay).bind fun ts hi
      hhi hts => ?_
    exact .pure hhi (Tracks.collects_more hts.1 hts.2)

theorem restOfFile_tracks (hg : Alike c g g' start d may) (h : c.Ready d lo) (hstart : start < lo)
    (hmay : ∀ mid, lo ≤ mid → may .namespaceDeclaration mid ∧ may .member mid) :
    Tracks c g.restOfFile g'.restOfFile d lo fun ts hi => lo ≤ hi ∧ ∀ t ∈ ts, c.Declared d t := by
  refine Tracks.bind (.collect _ _ h.le_size (by simp) fun found mid hle hmid =>
    restStep_tracks hg found (h.mono hle hmid) (by omega) (hmay mid hle)) ?_
  exact fun found hi hhi hfound => .pure hhi ⟨hfound.1, hfound.2.2⟩

/-- A namespace depends on what stands after its keyword: no deeper only if it has no braces. -/
theorem namespaceBody_tracks (hg : Alike c g g' lo d may) (h : c.Ready d lo)
    (hlo : lo < c.words.size) (hmay : ∀ mid, c.words.FileScoped lo mid →
      may .namespaceDeclaration mid ∧ may .member mid) :
    Tracks c g.namespaceBody g'.namespaceBody d lo fun t hi => lo < hi ∧ c.Declared d t := by
  refine .here (.bump ((qualifiedName_tracks hlo).bind fun name n hn hname => ?_))
  refine .eat (fun hsemi => ?_) fun _ => .look ?_
  · -- a namespace without braces: what follows is as deep as it is itself
    have hready := h.mono (by omega : lo ≤ n + 1) (Words.lt_size_of_is hsemi)
    have hrest : ∀ mid, n + 1 ≤ mid → may .namespaceDeclaration mid ∧ may .member mid :=
      fun mid hmid => hmay mid ⟨n, by omega, hmid, hname.2.2, hsemi⟩
    refine (restOfFile_tracks hg hready (by omega) hrest).bind fun members hi hhi hmembers => ?_
    refine .node hhi ⟨by omega, ?_⟩
    have hbelow : ∀ t ∈ name :: members, c.Declared d t :=
      List.forall_mem_cons.2 ⟨(hname.2.1.mono (by omega)).but, hmembers.2⟩
    exact Low.of_kind (LowBut.fileScoped rfl hbelow) rfl
  · extract_lets rest
    have hrest : ∀ members m, m ≤ c.words.size → c.Parts d 1 n members m →
        Tracks c (rest members) (rest members) d m fun t hi => lo < hi ∧ c.Declared d t := by
      intro members m hm hmembers
      refine (eat_tracks .semi hm).bind fun _ hi hhi hle => .node hhi ⟨by omega, Low.but ?_⟩
      refine Low.mono (k := c.room d + 3)
        (Low.node (List.forall_mem_cons.2 ⟨?_, fun t ht => ?_⟩)) (by omega)
      · exact hname.2.1.mono (by omega)
      · exact (hmembers.2 t ht).mono (by omega)
    refine .ite (fun hopen => ?_) fun _ => .expected (hrest [] n hn ⟨Nat.le_refl n, by simp⟩)
    have hready := h.mono (by omega : lo ≤ n) hn
    refine Tracks.bind (.deeper hready ⟨c.words.le_pastGroup n, by simpa using low_skipped⟩
      fun hdeep => ?_) hrest
    have hroom := room_succ hdeep
    refine (braced_tracks (Words.lt_size_of_is hopen) fun _ mid hmid hsize _ =>
      namespaceMember_tracks hg.deeper (hready.deeper hdeep hmid (Nat.le_of_lt hsize))
        hsize (by omega)
        ⟨trivial, trivial⟩).mono ?_
    exact fun ts hi _ hts => ⟨Nat.le_of_lt hts.1, fun t ht => (hts.2 t ht).low (by omega)⟩

/-! ## Texts

At the top of a text all four nonterminals may be asked for, and nothing is open. -/

/-- An item at the top of a text is alike under both limits: a statement, a using directive, a
namespace or a member. -/
theorem topLevelItem_tracks (h : c.Ready d lo)
    (hg : ∀ x : Symbol, x.Ahead c.words lo →
      Tracks c (g.parser x) (g'.parser x) d lo (c.Fits d lo x)) :
    Tracks c g.topLevelItem g'.topLevelItem d lo fun t hi => c.Parts d 9 lo t.toList hi := by
  have hstatement : Tracks c (g.statement >>= fun t => pure (some t))
      (g'.statement >>= fun t => pure (some t)) d lo
      fun t hi => c.Parts d 9 lo t.toList hi := by
    refine (hg .statement trivial).bind fun t hi hhi ht => .pure hhi ?_
    exact ⟨ht.1, by simpa using ht.2.1⟩
  refine .look ?_
  split
  · exact .pure h.le_size ⟨Nat.le_refl lo, by simp⟩
  · exact .pure h.le_size ⟨Nat.le_refl lo, by simp⟩
  rename_i k _ hk
  refine .lookWithin (c.used lo) (.ite (fun _ => hstatement) fun _ => .look ?_)
  refine .ite (fun husing => ?_) fun _ => .ite (fun heq => ?_) fun _ =>
    .look (.ite (fun _ => ?_) fun _ => hstatement)
  · refine (usingDirective_tracks husing).bind fun t hi hhi ht => .pure hhi ?_
    exact ⟨Nat.le_of_lt ht.1, by simpa using ht.2.mono (by omega)⟩
  · have hword : c.words.is lo .namespaceKw = true := Words.is_eq_true.2 (eq_of_beq heq ▸ hk)
    refine (hg .namespaceDeclaration hword).bind fun t hi hhi ht => .pure hhi ?_
    exact ⟨Nat.le_of_lt ht.1, by simpa using ht.2.low (by omega)⟩
  · refine (hg .member trivial).mono fun t hi _ ht => ⟨ht.1, fun t' ht' => ?_⟩
    exact (ht.2 t' (by simpa using ht')).low (by omega)

theorem unitStep_tracks (found : Array Node) (h : c.Ready d lo)
    (hg : ∀ x : Symbol, x.Ahead c.words lo →
      Tracks c (g.parser x) (g'.parser x) d lo (c.Fits d lo x)) :
    Tracks c (g.unitStep found) (g'.unitStep found) d lo
      (Tracks.Collects (Low (c.room d + 9)) (· = c.words.size) found lo) := by
  refine .look ?_
  split
  · rename_i hk
    refine .pure h.le_size ⟨Nat.le_refl lo,
      Nat.le_antisymm h.le_size (Nat.le_of_not_lt fun hlt => ?_), rfl⟩
    obtain ⟨k, hk'⟩ := Words.exists_kind? hlt
    exact absurd (hk.symm.trans hk') (by simp)
  · have hlt : lo < c.words.size := Words.lt_size_of_kind? ‹_›
    refine .here ((topLevelItem_tracks h hg).bind fun item n hn hitem =>
      .here (.ite (fun heq => ?_) fun hne => ?_))
    · refine (unexpected_tracks hn).bind fun _ hi hhi hle => .pure hhi ?_
      rw [heq] at hle
      exact Tracks.collects_more (hle.2 hlt) hitem.2
    · exact .pure hn (Tracks.collects_more (Nat.lt_of_le_of_ne hitem.1 (Ne.symm hne)) hitem.2)

/-- A text is read to its end. -/
theorem compilationUnit_tracks (h : c.Ready d lo)
    (hg : ∀ {mid}, lo ≤ mid → c.Ready d mid → ∀ x : Symbol, x.Ahead c.words mid →
      Tracks c (g.parser x) (g'.parser x) d mid (c.Fits d mid x)) :
    Tracks c g.compilationUnit g'.compilationUnit d lo fun t hi =>
      hi = c.words.size ∧ Low (c.room d + 10) t := by
  refine Tracks.bind (.collect _ _ h.le_size (by simp) fun found mid hle hmid =>
    unitStep_tracks found (h.mono hle hmid) (hg hle (h.mono hle hmid))) ?_
  exact fun found hi hhi hfound => .node hhi ⟨hfound.2.1, Low.node hfound.2.2⟩

end Nonterminals

/-! ## Recursion

Two measures are at work: how many nonterminals can follow each other without a word, and how many
words there are. Together they bound how often the grammar needs to be unfolded. -/

/-- How many nonterminals may follow one another before a word is taken: a statement may start with
a member, and a member with a namespace. -/
def Symbol.rank : Symbol → Nat
  | .expression _ _ => 0
  | .namespaceDeclaration => 0
  | .member => 1
  | .statement => 2

/-- How many nonterminals may follow one another from `lo` on. -/
def Symbol.weight (ws : Words) (lo : Nat) (x : Symbol) : Nat := 4 * (ws.size - lo) + x.rank

theorem Symbol.rank_le (x : Symbol) : x.rank ≤ 2 := by
  cases x <;> simp [rank]

/-- After a word, any nonterminal weighs less. -/
theorem Symbol.weight_lt {ws : Words} {lo mid : Nat} {x y : Symbol} (hlo : lo < mid)
    (hmid : mid ≤ ws.size) :
    y.weight ws mid < x.weight ws lo := by
  have hrank := y.rank_le
  simp only [weight]
  omega

/-- A nonterminal `x` that starts at `lo` calls another one from `hi` on and enters no construct,
though calls like this one may follow each other without end. -/
inductive Unguarded (ws : Words) (lo hi : Nat) : (x y : Symbol) → Prop
  | anonymousValue {toComma : Bool} {scope : Scope} : ws.AnonymousValue lo hi →
      Unguarded ws lo hi (.expression toComma scope) (.expression true .statement)
  | namespaceInFile : ws.FileScoped lo hi →
      Unguarded ws lo hi .namespaceDeclaration .namespaceDeclaration
  | memberInFile : ws.FileScoped lo hi → Unguarded ws lo hi .namespaceDeclaration .member

namespace Nonterminals

variable {g g' : Nonterminals}

/-! ### The nonterminals one by one

Each nonterminal is its own body over the others, with the premises that the body needs. Here the
four are put together. -/

def body (g : Nonterminals) : (x : Symbol) → Parser x.Result
  | .expression toComma scope => g.expressionBody toComma scope
  | .namespaceDeclaration => g.namespaceBody
  | .member => g.memberDeclaration
  | .statement => g.statementBody

def next (g : Nonterminals) : Nonterminals where
  expression := g.expressionBody
  namespaceDeclaration := g.namespaceBody
  member := g.memberDeclaration
  statement := g.statementBody

theorem parser_next (x : Symbol) : g.next.parser x = g.body x := by
  cases x <;> rfl

/-- A nonterminal depends on later words, and at its own word on nonterminals of a lower rank. Those
that it depends on are inside more constructs, or of a lower level, or called without a guard. -/
theorem body_tracks (x : Symbol) (h : c.Ready d lo) (hx : x.Ahead c.words lo)
    (hg : ∀ d' mid (y : Symbol), c.Ready d' mid → y.Ahead c.words mid →
      lo < mid ∨ lo = mid ∧ y.rank < x.rank →
      d < d' ∨ d' = d ∧ (x.Below c.words lo y mid ∨ Unguarded c.words lo mid x y) →
      Tracks c (g.parser y) (g'.parser y) d' mid (c.Fits d' mid y)) :
    Tracks c (g.body x) (g'.body x) d lo (c.Fits d lo x) := by
  -- behind the first word anything may be asked for that is lower, or not guarded
  have hlater : Alike c g g' lo d fun y mid => x.Below c.words lo y mid ∨
      Unguarded c.words lo mid x y :=
    ⟨fun y hr hlt hy hd => hg _ _ y hr hy (.inl hlt) hd⟩
  have hlower : Alike c g g' lo d (x.Below c.words lo) := hlater.mono fun _ _ => .inl
  -- at the first word only what has a lower rank
  have hhere : ∀ y : Symbol, y.Ahead c.words lo → y.rank < x.rank → x.Below c.words lo y lo →
      Tracks c (g.parser y) (g'.parser y) d lo (c.Fits d lo y) :=
    fun y hy hrank hlow => hg d lo y h hy (.inr ⟨rfl, hrank⟩) (.inr ⟨rfl, .inl hlow⟩)
  cases x with
  | expression toComma scope =>
      exact expressionBody_tracks hlater h toComma scope fun _ hvalue =>
        .inr (.anonymousValue hvalue)
  | namespaceDeclaration =>
      refine namespaceBody_tracks hlater h (Words.lt_size_of_is hx) fun _ hscoped => ?_
      exact ⟨.inr (.namespaceInFile hscoped), .inr (.memberInFile hscoped)⟩
  | member =>
      exact memberDeclaration_tracks hlower h fun hk => hhere .namespaceDeclaration hk (by decide)
        Nat.zero_lt_one
  | statement =>
      have hlevel := Symbol.two_le_level_statement c.words lo
      exact statementBody_tracks hlower h (hhere .member trivial (by decide) hlevel)
        (hhere (.expression false .statement) trivial (by decide)
          (Nat.lt_of_lt_of_le Nat.zero_lt_two hlevel))

/-! ### Unfolding

The grammar unfolded some times over any other grammar. What is at the bottom is never asked, so all
that are deep enough are the same. -/

/-- The grammar unfolded `n` times over another one. -/
def unfoldedOver (base : Nonterminals) : Nat → Nonterminals
  | 0 => base
  | n + 1 => (unfoldedOver base n).next

/-- The grammar of a text is one of those unfolded over something. -/
theorem unfolded_eq (n : Nat) : unfolded n = unfoldedOver (unfolded 0) n := by
  induction n with
  | zero => rfl
  | succ n ih => rw [unfoldedOver, ← ih]; rfl

/-- **How often the grammar is unfolded does not matter**, nor what is left to be read then, if it
is unfolded often enough. -/
theorem unfolding_tracks (base base' : Nonterminals) {n n' : Nat} (x : Symbol) (h : c.Ready d lo)
    (hx : x.Ahead c.words lo) (hn : x.weight c.words lo < n) (hn' : x.weight c.words lo < n') :
    Tracks c ((unfoldedOver base n).parser x)
      ((unfoldedOver base' n').parser x) d lo (c.Fits d lo x) := by
  induction n generalizing n' d lo x with
  | zero => exact absurd hn (Nat.not_lt_zero _)
  | succ n ih =>
      obtain ⟨n', rfl⟩ := Nat.exists_eq_succ_of_ne_zero (Nat.ne_zero_of_lt hn')
      rw [unfoldedOver, unfoldedOver, parser_next, parser_next]
      refine body_tracks x h hx fun d' mid y hr hy hlater _ => ?_
      have hweight : y.weight c.words mid < x.weight c.words lo := by
        rcases hlater with hlt | ⟨rfl, hrank⟩
        · exact Symbol.weight_lt hlt hr.le_size
        · exact Nat.add_lt_add_left hrank _
      exact ih y hr hy (by omega) (by omega)

/-- A whole text is read the same over any two grammars that are unfolded often enough, whatever
they are unfolded from. -/
theorem compilationUnit_unfolding_tracks (base base' : Nonterminals) {n n' : Nat}
    (hn : 4 * (c.words.size + 1) ≤ n) (hn' : 4 * (c.words.size + 1) ≤ n') :
    Tracks c (unfoldedOver base n).compilationUnit (unfoldedOver base' n').compilationUnit 0
      0 fun t hi =>
      hi = c.words.size ∧ Low (c.room 0 + 10) t := by
  refine compilationUnit_tracks ⟨Nat.le_refl 0, Nat.zero_le _, Nat.zero_le _⟩ fun _ hr x hx => ?_
  have hrank := x.rank_le
  exact unfolding_tracks base base' x hr hx (by simp only [Symbol.weight]; omega)
    (by simp only [Symbol.weight]; omega)

end Nonterminals

/-- What the parser of a text gives is its tree with its faults. -/
theorem parse_eq {words : Words} {limit : Limit} {hi : Nat} {t : Node} {more : Array Fault}
    (h : Gives (Nonterminals.unfolded (4 * (words.size + 1))).compilationUnit ⟨words,
      limit⟩ 0 0 t hi more) :
    parse words limit = ⟨t, more.toList⟩ := by
  have hrun := h #[]
  rw [Array.empty_append] at hrun
  simp only [parse, State.initial, Guard.initial, hrun]

end SharpTokens.Grammar
