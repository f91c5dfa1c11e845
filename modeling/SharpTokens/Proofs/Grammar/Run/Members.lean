import SharpTokens.Grammar.Member
import SharpTokens.Proofs.Grammar.Run.Statements

/-!
# Runs of declarations

The same for types and their members. Only a namespace, which may stand where a member is expected,
is read from where the member starts.

Everything in the body of a type is a level deeper, and so are accessors. In its own construct a
member asks for expressions, in initial values and behind arrows, and for a namespace in its own
place.
-/

namespace SharpTokens.Grammar.Nonterminals

open Grammar.Parser Loosened

variable {c : Loosened} {g g' : Nonterminals} {may : Symbol → Nat → Prop} {d lo hi start : Nat}

/-! ## Heads

Attributes are leaves, so they make no node higher. -/

/-- The attributes of a head are low. -/
def Head.Flat (h : Head) : Prop := ∀ t ∈ h.attributes, Low 1 t

namespace Head

variable {h : Head} {lo' : Nat} {kind : NodeKind} {children : List Node}

/-- A declaration is one higher than what is below it, whatever its attributes are. -/
theorem Flat.low {k : Nat} {l : Label} (hh : h.Flat) (hts : ∀ t ∈ children, Low (k + 1) t) :
    Low (k + 2) (.node l (h.attributes ++ children)) := by
  apply Low.node
  exact List.forall_mem_append.2 ⟨fun t ht => (hh t ht).mono (by omega), hts⟩

theorem named_tracks (hh : h.Flat) (name : Name) (hhi : hi ≤ c.words.size)
    (hts : c.Parts d 6 lo' children hi) (hlo : lo ≤ lo') :
    Tracks c (h.named kind name children) (h.named kind name children) d hi (c.Part d 7 lo) :=
  .node hhi ⟨Nat.le_trans hlo hts.1, hh.low hts.2⟩

theorem unnamed_tracks (hh : h.Flat) (hhi : hi ≤ c.words.size) (hts : c.Parts d 6 lo' children hi)
    (hlo : lo ≤ lo') :
    Tracks c (h.unnamed kind children) (h.unnamed kind children) d hi (c.Part d 7 lo) :=
  .node hhi ⟨Nat.le_trans hlo hts.1, hh.low hts.2⟩

theorem incomplete_tracks (hh : h.Flat) (hlo : lo ≤ c.words.size) :
    Tracks c h.incomplete h.incomplete d lo (c.Part d 7 lo) :=
  .node hlo ⟨Nat.le_refl lo, Low.node fun t ht => (hh t ht).mono (by omega)⟩

end Head

/-! ## Recovery

A broken member takes a word, so that the next one is further on. -/

theorem recover_tracks (hlo : lo ≤ c.words.size) :
    Tracks c recover recover d lo fun _ hi => lo ≤ hi ∧ (lo < c.words.size → lo < hi) := by
  refine .look ?_
  split
  · rename_i hk
    refine .pure hlo ⟨Nat.le_refl lo, fun hlt => ?_⟩
    obtain ⟨k, hk'⟩ := Words.exists_kind? hlt
    exact absurd (hk.symm.trans hk') (by simp)
  · rename_i k hk
    have hlt := Words.lt_pastGroup (Words.lt_size_of_kind? hk)
    refine .fault (.skipGroup ((skipGroupsWhile_tracks _ (Words.pastGroup_le_size hlo)).bind
      fun _ m hm hle => ?_))
    exact (eat_tracks .semi hm).bind fun _ hi hhi hle' => .pure hhi ⟨by omega, fun _ => by omega⟩

/-- Either a member takes a word, or recovery does. -/
theorem memberOrRecover_tracks {p q : Parser (Option Node)} {P : Node → Prop}
    (hlo : lo < c.words.size) (hp : Tracks c p q d lo fun t hi => lo ≤ hi ∧ ∀ t' ∈ t, P t') :
    Tracks c (memberOrRecover p) (memberOrRecover q) d lo fun ts hi => lo < hi ∧ ∀ t ∈ ts, P t := by
  refine .here (hp.bind fun found mid hmid hfound => .here (.ite (fun heq => ?_) fun hne => ?_))
  · refine (recover_tracks hmid).bind fun _ hi hhi hle => .pure hhi ⟨?_, by simpa using hfound.2⟩
    rw [heq] at hle
    exact hle.2 hlo
  · exact .pure hmid ⟨Nat.lt_of_le_of_ne hfound.1 (Ne.symm hne), by simpa using hfound.2⟩

/-! ## Accessors

They are read one by one in a level of their own. -/

theorem accessorBody_tracks (hg : Alike c g g' start d values) (h : c.Ready d lo)
    (hstart : start ≤ lo) :
    Tracks c g.accessorBody g'.accessorBody d lo (c.Parts d 4 lo) := by
  refine .look ?_
  split
  · exact .bump (.pure (Words.lt_size_of_kind? ‹_›) ⟨Nat.le_succ lo, by simp⟩)
  · refine (block_tracks hg h (Words.lt_size_of_kind? ‹_›) hstart).bind fun t hi hhi ht =>
      .pure hhi ?_
    exact ⟨Nat.le_of_lt ht.1, by simpa using ht.2.mono (by omega)⟩
  · exact arrow_tracks hg h (Words.lt_size_of_kind? ‹_›) hstart
  · exact .expected (.pure h.le_size ⟨Nat.le_refl lo, by simp⟩)

theorem accessorItem_tracks (hg : Alike c g g' start d values) {k : Kind} (h : c.Ready d lo)
    (hk : c.words.kind? lo = some k) (hstart : start ≤ lo) :
    Tracks c (g.accessorItem k) (g'.accessorItem k) d lo fun ts hi => lo < hi ∧
      ∀ t ∈ ts, Low (c.room d + 4) t := by
  have hlt := Words.lt_size_of_kind? hk
  refine .ite (fun hopen => ?_) fun _ => ?_
  · refine (attributeLists_tracks h.le_size).mono fun ts hi _ hts =>
      ⟨?_, fun t ht => (hts.2.2 t ht).mono (by omega)⟩
    refine Nat.lt_of_le_of_ne hts.1 fun heq => ?_
    rw [← heq] at hts
    exact Words.is_eq_false.1 hts.2.1 (eq_of_beq hopen ▸ hk)
  refine .ite (fun _ => .bump (.pure hlt ⟨Nat.lt_succ_self lo, by simp⟩)) fun _ => ?_
  refine .ite (fun _ => .bump ?_) fun _ => .fault (.skipGroup ?_)
  · refine (accessorBody_tracks hg (h.mono (Nat.le_succ lo) hlt) (by omega)).mono fun ts
      hi _ hts => ?_
    exact ⟨hts.1, hts.2⟩
  · exact .pure (Words.pastGroup_le_size h.le_size) ⟨Words.lt_pastGroup hlt, by simp⟩

theorem accessorList_tracks (hg : Alike c g g' start d may) (h : c.Ready d lo)
    (hlo : lo < c.words.size) (hstart : start ≤ lo) :
    Tracks c g.accessorList g'.accessorList d lo (c.Parts d 1 lo) := by
  have hinside : Alike c g g' start (d + 1) values := hg.deeper.mono fun _ _ _ => trivial
  refine .deeper h ⟨c.words.le_pastGroup lo, by simpa using low_skipped⟩ fun hdeep => ?_
  have hroom := room_succ hdeep
  refine (braced_tracks hlo fun k mid hmid hsize hk =>
    accessorItem_tracks hinside (h.deeper hdeep hmid (Nat.le_of_lt hsize)) hk (by omega)).mono
      fun ts hi _ hts => ?_
  exact ⟨Nat.le_of_lt hts.1, fun t ht => (hts.2 t ht).mono (by omega)⟩

/-- Accessors or an arrow, and then perhaps an initial value. -/
theorem propertyBody_tracks (hg : Alike c g g' start d values) (h : c.Ready d lo)
    (hstart : start ≤ lo) :
    Tracks c g.propertyBody g'.propertyBody d lo (c.Parts d 4 lo) := by
  refine .look ?_
  extract_lets rest rest'
  have hrest : ∀ body mid, mid ≤ c.words.size → c.Parts d 4 lo body mid →
      Tracks c (rest body) (rest' body) d mid (c.Parts d 4 lo) := by
    intro body mid hmid hbody
    refine .eat (fun heq => ?_) fun _ => .pure hmid (hbody.append ⟨Nat.le_refl mid, by simp⟩)
    have hready := h.mono (Nat.le_succ_of_le hbody.1) (Words.lt_size_of_is heq)
    refine (expressionStatement_tracks hg hready (by omega)).bind fun value hi hhi hvalue =>
      .pure hhi ?_
    refine hbody.append ⟨Nat.le_of_succ_le hvalue.1, fun t ht => ?_⟩
    exact (hvalue.2 t ht).low (by omega)
  split
  · refine (accessorList_tracks hg h (Words.lt_size_of_kind? ‹_›) hstart).bind fun body mid
      hmid hbody => ?_
    exact hrest body mid hmid (hbody.mono (Nat.le_refl lo) (by omega))
  · have hlt : lo < c.words.size := Words.lt_size_of_kind? ‹_›
    have hready := h.mono (Nat.le_succ lo) hlt
    refine .bump ((expressionStatement_tracks hg hready (by omega)).bind
      fun body mid hmid hbody => ?_)
    exact hrest body mid hmid ⟨Nat.le_of_succ_le hbody.1, fun t ht => (hbody.2 t ht).low (by omega)⟩
  · exact .expected (hrest [] lo h.le_size ⟨Nat.le_refl lo, by simp⟩)

/-! ## Types

The header is passed over, and the body is a level of its own. -/

theorem typeItem_tracks (hg : Alike c g g' start d may) {k : Kind} (h : c.Ready d lo)
    (hk : c.words.kind? lo = some k) (hstart : start < lo) (hmay : may .member lo) :
    Tracks c (g.typeItem k) (g'.typeItem k) d lo fun ts hi => lo < hi ∧
      ∀ t ∈ ts, c.Declared d t := by
  have hlt := Words.lt_size_of_kind? hk
  refine .ite (fun _ => .bump (.pure hlt ⟨Nat.lt_succ_self lo, by simp⟩)) fun _ => ?_
  exact memberOrRecover_tracks hlt (hg.member h hstart hmay)

theorem typeBody_tracks (hg : Alike c g g' start d may) (h : c.Ready d lo) (hlo : lo < c.words.size)
    (hstart : start ≤ lo) :
    Tracks c (deeper (braced g.typeItem)) (deeper (braced g'.typeItem)) d lo (c.Parts d 1 lo) := by
  refine .deeper h ⟨c.words.le_pastGroup lo, by simpa using low_skipped⟩ fun hdeep => ?_
  have hroom := room_succ hdeep
  refine (braced_tracks hlo fun k mid hmid hsize hk =>
    typeItem_tracks hg.deeper (h.deeper hdeep hmid (Nat.le_of_lt hsize)) hk (by omega) trivial).mono
      fun ts hi _ hts => ?_
  exact ⟨Nat.le_of_lt hts.1, fun t ht => (hts.2 t ht).low (by omega)⟩

/-- A record may have parameters, and any of them may have no body. -/
theorem typeDeclaration_tracks (hg : Alike c g g' start d values) (kind : NodeKind) {h : Head}
    (hh : h.Flat) (hr : c.Ready d lo) (hlo : lo < c.words.size) (hstart : start ≤ lo) :
    Tracks c (g.typeDeclaration kind h) (g'.typeDeclaration kind h) d lo (c.Part d 7 lo) := by
  refine .bump ?_
  extract_lets rest rest'
  -- from the name on, wherever the keywords of a record ended
  have hrest : ∀ u n, n ≤ c.words.size → lo < n →
      Tracks c (rest u) (rest' u) d n (c.Part d 7 lo) := by
    intro u n hn hlon
    refine (name_tracks hn).bind fun name n₁ hn₁ hname => ?_
    refine (typeParameters_tracks hn₁).bind fun _ n₂ hn₂ hle₂ => .look ?_
    have hr₂ := hr.mono (by omega : lo ≤ n₂) hn₂
    extract_lets body body'
    have hbody : ∀ parameters n₃, n₃ ≤ c.words.size → c.Parts d 6 n₂ parameters n₃ →
        Tracks c (body parameters) (body' parameters) d n₃ (c.Part d 7 lo) := by
      intro parameters n₃ hn₃ hparameters
      refine (typeHeader_tracks hn₃).bind fun _ n₄ hn₄ hle₄ => .look ?_
      extract_lets finish
      -- the node is made alike, whatever was found of the body
      have hfinish : ∀ members hi, hi ≤ c.words.size → c.Parts d 1 n₄ members hi →
          Tracks c (finish members) (finish members) d hi (c.Part d 7 lo) := by
        intro members hi hhi hmembers
        have hbelow := hparameters.append (hmembers.mono hle₄ (by omega))
        exact Head.named_tracks hh name hhi hbelow (by omega)
      split
      · have hr₄ := hr₂.mono (Nat.le_trans hparameters.1 hle₄) hn₄
        refine (typeBody_tracks hg hr₄ (Words.lt_size_of_kind? ‹_›) (by omega)).bind fun members mid
          hmid hmembers => ?_
        refine (eat_tracks .semi hmid).bind fun _ hi hhi hle => hfinish members hi hhi ?_
        exact ⟨Nat.le_trans hmembers.1 hle, hmembers.2⟩
      · exact .bump (hfinish [] (n₄ + 1) (Words.lt_size_of_kind? ‹_›) ⟨Nat.le_succ n₄, by simp⟩)
      · exact .expected (hfinish [] n₄ hn₄ ⟨Nat.le_refl n₄, by simp⟩)
    refine .ite (fun hopen => ?_) fun _ => hbody [] n₂ hn₂ ⟨Nat.le_refl n₂, by simp⟩
    have hr₃ := hr₂.mono (Nat.le_succ n₂) (Words.lt_size_of_is hopen)
    refine (parameterList_tracks hg .method hr₃ (by omega) fun _ _ _ => ⟨_, _, rfl⟩).bind fun t n₃
      hn₃ ht => ?_
    refine hbody [t] n₃ hn₃ ?_
    exact ⟨Nat.le_of_lt ht.1, by simpa using ht.2.low_values⟩
  refine .ite (fun _ => ?_) fun _ => hrest () (lo + 1) hlo (Nat.lt_succ_self lo)
  refine (eat_tracks .classKw hlo).bind fun found n hn hle =>
    .ite (fun _ => hrest () n hn hle) fun _ => ?_
  exact (eat_tracks .structKw hn).bind fun _ m hm hle' => hrest () m hm (by omega)

theorem enumMember_tracks (hg : Alike c g g' start d values) (h : c.Ready d lo)
    (hstart : start ≤ lo) (hword : c.words.isAny lo [.lbracket, .ident] = true) :
    Tracks c g.enumMember g'.enumMember d lo fun t hi => lo < hi ∧ Low (c.room d + 5) t := by
  refine .here ((attributeLists_tracks h.le_size).bind fun attributes n hn hattributes => ?_)
  refine (name_tracks hn).bind fun name m hm hname => ?_
  -- the word ahead belongs to an attribute or is the name
  have hlt : lo < m := by
    by_cases hmoved : lo < n
    · omega
    · obtain rfl : n = lo := by omega
      obtain ⟨k, hk, heq⟩ := Words.isAny_eq_true.1 hword
      simp only [List.mem_cons, List.not_mem_nil, or_false] at hk
      rcases hk with rfl | rfl
      · exact absurd heq (Words.is_eq_false.1 hattributes.2.1)
      · exact hname.2 (Words.is_eq_true.2 heq)
  refine value_tracks hg (h.mono (Nat.le_of_lt hlt) hm) (by omega) (fun _ => ⟨_, _, rfl⟩) fun value
    hi hle hhi hvalue => ?_
  refine .node hhi ⟨by omega, Low.node (List.forall_mem_append.2 ⟨fun t ht => ?_, fun t ht => ?_⟩)⟩
  · exact (hattributes.2.2 t ht).mono (by omega)
  · exact (hvalue t ht).low (by omega)

theorem enumItem_tracks (hg : Alike c g g' start d values) {k : Kind} (h : c.Ready d lo)
    (hk : c.words.kind? lo = some k) (hstart : start ≤ lo) :
    Tracks c (g.enumItem k) (g'.enumItem k) d lo fun ts hi => lo < hi ∧
      ∀ t ∈ ts, Low (c.room d + 5) t := by
  have hlt := Words.lt_size_of_kind? hk
  refine .ite (fun _ => .bump (.pure hlt ⟨Nat.lt_succ_self lo, by simp⟩)) fun _ => ?_
  refine .ite (fun hkind => ?_) fun _ => ?_
  · have hword : c.words.isAny lo [.lbracket, .ident] = true := by
      refine Words.isAny_eq_true.2 ⟨k, ?_, hk⟩
      simpa using hkind
    refine (enumMember_tracks hg h hstart hword).bind fun t hi hhi ht => .pure hhi ?_
    exact ⟨ht.1, by simpa using ht.2⟩
  · exact (unexpected_tracks h.le_size).bind fun _ hi hhi hle => .pure hhi ⟨hle.2 hlt, by simp⟩

/-- Values between braces, a level deeper. -/
theorem enumDeclaration_tracks (hg : Alike c g g' start d may) {h : Head} (hh : h.Flat)
    (hr : c.Ready d lo) (hlo : lo < c.words.size) (hstart : start ≤ lo) :
    Tracks c (g.enumDeclaration h) (g'.enumDeclaration h) d lo (c.Part d 7 lo) := by
  refine .bump ((name_tracks hlo).bind fun name n hn hname => ?_)
  refine (typeHeader_tracks hn).bind fun _ m hm hle => .look ?_
  have hlom : lo ≤ m := by omega
  have hfinish : ∀ members hi, hi ≤ c.words.size → c.Parts d 1 m members hi →
      Tracks c (h.named .enumDeclaration name members) (h.named .enumDeclaration name members) d hi
      (c.Part d 7 lo) :=
    fun members hi hhi hmembers => Head.named_tracks hh name hhi
      (hmembers.mono (Nat.le_refl m) (by omega)) hlom
  refine .ite (fun hopen => ?_) fun _ => .expected (hfinish [] m hm ⟨Nat.le_refl m, by simp⟩)
  have hr := hr.mono hlom hm
  have hinside : Alike c g g' start (d + 1) values := hg.deeper.mono fun _ _ _ => trivial
  refine Tracks.bind (Q := c.Parts d 1 m) ?_ fun members mid hmid hmembers => ?_
  · refine .deeper hr ⟨c.words.le_pastGroup m, by simpa using low_skipped⟩ fun hdeep => ?_
    have hroom := room_succ hdeep
    refine (braced_tracks (Words.lt_size_of_is hopen) fun k mid hmid hsize hk =>
      enumItem_tracks hinside (hr.deeper hdeep hmid (Nat.le_of_lt hsize)) hk (by omega)).mono fun ts
        hi _ hts => ?_
    exact ⟨Nat.le_of_lt hts.1, fun t ht => (hts.2 t ht).mono (by omega)⟩
  · refine (eat_tracks .semi hmid).bind fun _ hi hhi hle => hfinish members hi hhi ?_
    exact ⟨Nat.le_trans hmembers.1 hle, hmembers.2⟩

theorem delegateDeclaration_tracks (hg : Alike c g g' start d values) {h : Head} (hh : h.Flat)
    (hr : c.Ready d lo) (hlo : lo < c.words.size) (hstart : start ≤ lo) :
    Tracks c (g.delegateDeclaration h) (g'.delegateDeclaration h) d lo (c.Part d 7 lo) := by
  refine .bump ((expectType_tracks hlo).bind fun _ n hn hle => ?_)
  refine (name_tracks hn).bind fun name n₁ hn₁ hname => ?_
  refine (typeParameters_tracks hn₁).bind fun _ n₂ hn₂ hle₂ => ?_
  have hr₂ := hr.mono (by omega : lo ≤ n₂) hn₂
  refine (expectParameters_tracks hg hr₂ (by omega)).bind fun parameters n₃ hn₃ hparameters => ?_
  refine (constraints_tracks hn₃).bind fun _ n₄ hn₄ hle₄ => ?_
  refine (expect_tracks .semi hn₄).bind fun _ hi hhi hle₅ => ?_
  exact Head.named_tracks hh name hhi ⟨by omega, hparameters.2⟩ (by omega : lo ≤ n₂)

/-! ## Names of members

A name may be qualified by an interface with type arguments. The last part is the name, unless it is
a keyword. -/

/-- A keyword that stands for a name is ahead. -/
def MemberName.Ahead (ws : Words) (hi : Nat) : MemberName → Prop
  | .name _ => True
  | .indexer => hi < ws.size
  | .operator => hi < ws.size

/-- Each part is taken with the dot before it. -/
theorem qualifierStep_tracks (found : MemberName) (hlo : lo ≤ c.words.size) :
    Tracks c (qualifierStep found) (qualifierStep found) d lo
      (Tracks.Moves (fun r _ => ∃ n, r = .name n) (fun r hi => r = found ∨
        r.Ahead c.words hi) lo) := by
  refine .lookWithin (by simp [c.arguments]) ?_
  split
  · exact .pure hlo ⟨Nat.le_refl lo, .inl rfl⟩
  · rename_i past hpast
    -- past arguments if there are any, and still among the words
    have hpast : lo ≤ past ∧ past ≤ c.words.size := by
      split at hpast
      · rename_i hopen
        have hpast := Option.eq_some_of_filter_eq_some hpast
        refine ⟨Nat.le_of_lt (c.words.lt_of_typeArgumentsEnd? hpast), ?_⟩
        exact Words.le_size_of_typeArgumentsEnd? hpast (Words.lt_size_of_is hopen)
      · obtain rfl := Option.some.inj hpast
        exact ⟨Nat.le_refl lo, hlo⟩
    have hdot : ∀ {k}, (if c.words.is past .dot then c.words.kind? (past + 1) else none) = some k →
        past + 1 < c.words.size := by
      intro k h
      split at h
      · exact Words.lt_size_of_kind? h
      · cases h
    refine .moveTo (.look ?_)
    split
    · have hlt := hdot ‹_›
      refine .bump ((name_tracks (Nat.le_of_lt hlt)).bind fun name hi hhi hname =>
        .pure hhi ⟨?_, name, rfl⟩)
      omega
    · have hlt := hdot ‹_›
      exact .bump (.pure (Nat.le_of_lt hlt) ⟨by omega, .inr hlt⟩)
    · have hlt := hdot ‹_›
      exact .bump (.pure (Nat.le_of_lt hlt) ⟨by omega, .inr hlt⟩)
    · exact .pure hpast.2 ⟨hpast.1, .inl rfl⟩

theorem qualifiedMember_tracks (last : Name) (hlo : lo ≤ c.words.size) :
    Tracks c (qualifiedMember last) (qualifiedMember last) d lo fun found hi =>
      lo ≤ hi ∧ found.Ahead c.words hi := by
  refine .loop (fun found _ => ∃ n, found = .name n) _ hlo ⟨last, rfl⟩ ?_
  rintro _ mid - hmid ⟨n, rfl⟩
  refine (qualifierStep_tracks (.name n) hmid).mono ?_
  rintro (r | r) hi - hr
  · exact hr
  · refine ⟨hr.1, hr.2.elim ?_ id⟩
    rintro rfl
    trivial

theorem memberName_tracks (hlo : lo ≤ c.words.size) :
    Tracks c memberName memberName d lo fun found hi => lo ≤ hi ∧ found.Ahead c.words hi := by
  refine .look (.ite (fun _ => ?_) fun _ => ?_)
  · refine (name_tracks hlo).bind fun name mid hmid hname =>
      (qualifiedMember_tracks name hmid).mono ?_
    exact fun found hi _ hfound => ⟨Nat.le_trans hname.1 hfound.1, hfound.2⟩
  · exact (name_tracks hlo).bind fun name mid hmid hname => .pure hmid ⟨hname.1, trivial⟩

/-! ## Members

By the word ahead, or by what follows a type and a name. -/

theorem eventDeclaration_tracks (hg : Alike c g g' start d values) {h : Head} (hh : h.Flat)
    (hr : c.Ready d lo) (hlo : lo < c.words.size) (hstart : start ≤ lo) :
    Tracks c (g.eventDeclaration h) (g'.eventDeclaration h) d lo (c.Part d 7 lo) := by
  refine .bump (.here ((expectType_tracks hlo).bind fun _ n hn hle => ?_))
  refine (memberName_tracks hn).bind fun found m hm hfound => ?_
  extract_lets rest rest'
  have hrest : ∀ name k, k ≤ c.words.size → lo ≤ k →
      Tracks c (rest name) (rest' name) d k (c.Part d 7 lo) := by
    intro name k hk hlok
    have hr := hr.mono hlok hk
    refine .look (.ite (fun hopen => ?_) fun _ => ?_)
    · refine (accessorList_tracks hg hr (Words.lt_size_of_is hopen) (by omega)).bind fun accessors
        hi hhi h => ?_
      exact Head.named_tracks hh name hhi (h.mono (Nat.le_refl k) (by omega)) hlok
    · refine (declarators_tracks hg (lo + 1) name hr (by omega)).bind fun declared mid hmid
        hdeclared => ?_
      refine (expect_tracks .semi hmid).bind fun _ hi hhi hle => ?_
      have hbelow : c.Parts d 6 k [declared] mid := hdeclared.one (Nat.le_refl k) (Nat.le_refl 6)
      exact Head.unnamed_tracks hh hhi ⟨Nat.le_trans hbelow.1 hle, hbelow.2⟩ hlok
  have hmissing : Tracks c (expected (.kind .ident) >>= fun _ => missingName >>= rest)
      (expected (.kind .ident) >>= fun _ => missingName >>= rest') d m (c.Part d 7 lo) := by
    refine .expected ((missingName_tracks hm).bind fun name k hk hmk => hrest name k hk ?_)
    omega
  cases found with
  | name name => exact hrest name m hm (by omega)
  | indexer => exact hmissing
  | operator => exact hmissing

/-- Parameters and a body, as most members end. -/
theorem parametersAndBody_tracks {Q : Node → Nat → Prop} {f : List Node → Parser Node}
    (hg : Alike c g g' start d values) (hr : c.Ready d lo) (hstart : start ≤ lo)
    (hf : ∀ ts hi, hi ≤ c.words.size → c.Parts d 6 lo ts hi → Tracks c (f ts) (f ts) d hi Q) :
    Tracks c
      (do
        let parameters ← g.expectParameters
        let body ← g.memberBody
        f (parameters ++ body))
      (do
        let parameters ← g'.expectParameters
        let body ← g'.memberBody
        f (parameters ++ body)) d lo Q := by
  refine (expectParameters_tracks hg hr hstart).bind fun parameters mid hmid hparameters => ?_
  refine (memberBody_tracks hg (hr.mono hparameters.1 hmid) (by omega)).bind fun body hi
    hhi hbody => ?_
  exact hf _ hi hhi (hparameters.append (hbody.mono (Nat.le_refl mid) (by omega)))

/-! ### Members by their kind

Parameters, then a body, with a few words before them. The premises say that the word ahead was
looked at, so at least that one is taken. -/

theorem conversionOperator_tracks (hg : Alike c g g' start d values) {h : Head} (hh : h.Flat)
    (hr : c.Ready d lo) (hlo : lo < c.words.size) (hstart : start ≤ lo) :
    Tracks c (g.conversionOperator h) (g'.conversionOperator h) d lo (c.Part d 7 lo) := by
  refine .bump ((expect_tracks .operatorKw hlo).bind fun _ n hn hle => ?_)
  refine (eat_tracks .checkedKw hn).bind fun _ n₁ hn₁ hle₁ => ?_
  refine (expectType_tracks hn₁).bind fun _ n₂ hn₂ hle₂ => ?_
  have hlo₂ : lo ≤ n₂ := by omega
  refine parametersAndBody_tracks hg (hr.mono hlo₂ hn₂) (by omega) fun ts hi hhi hts => ?_
  exact Head.unnamed_tracks hh hhi hts hlo₂

theorem destructor_tracks (hg : Alike c g g' start d values) {h : Head} (hh : h.Flat)
    (hr : c.Ready d lo) (hlo : lo < c.words.size) (hstart : start ≤ lo) :
    Tracks c (g.destructor h) (g'.destructor h) d lo (c.Part d 7 lo) := by
  refine .bump ((name_tracks hlo).bind fun name n hn hname => ?_)
  refine parametersAndBody_tracks hg (hr.mono (by omega) hn) (by omega) fun ts hi hhi hts => ?_
  exact Head.named_tracks hh name hhi hts (by omega)

/-- A name and a parenthesis, and then perhaps the call of another one. -/
theorem constructor_tracks (hg : Alike c g g' start d values) {h : Head} (hh : h.Flat)
    (hr : c.Ready d lo) (hopen : c.words.is (lo + 1) .lparen = true) (hstart : start ≤ lo) :
    Tracks c (g.constructor h) (g'.constructor h) d lo (c.Part d 7 lo) := by
  have hr₁ := hr.mono (by omega : lo ≤ lo + 1 + 1) (Words.lt_size_of_is hopen)
  refine .bump ((parameterList_tracks hg .method hr₁ (by omega) fun _ _ _ => ⟨_, _, rfl⟩).bind
    fun parameters n hn hparameters => ?_)
  extract_lets rest base rest' base'
  have hrest : ∀ call m, m ≤ c.words.size → c.Parts d 1 n call m →
      Tracks c (rest call) (rest' call) d m (c.Part d 7 lo) := by
    intro call m hm hcall
    refine (memberBody_tracks hg (hr.mono (by omega) hm) (by omega)).bind fun body hi
      hhi hbody => ?_
    have hfirst : c.Parts d 6 lo [parameters] n :=
      ⟨by omega, by simpa using hparameters.2.low_values⟩
    have hbelow := hfirst.append
      ((hcall.mono (Nat.le_refl n) (by omega)).append (hbody.mono (Nat.le_refl m) (by omega)))
    exact Head.unnamed_tracks hh hhi hbelow (Nat.le_refl lo)
  refine .eat (fun hcolon => .look ?_) fun _ => hrest [] n hn ⟨Nat.le_refl n, by simp⟩
  have hbase : ∀ u mid, mid ≤ c.words.size → n ≤ mid →
      Tracks c (base u) (base' u) d mid (c.Part d 7 lo) := by
    intro u mid hmid hle
    refine (condition_tracks hg (hr.mono (by omega) hmid) (by omega)).bind fun call m hm hcall => ?_
    exact hrest call m hm (hcall.mono hle (Nat.le_refl 1))
  refine .ite (fun hword => .bump (hbase () _ (Words.lt_size_of_isAny hword) (by omega))) fun _ =>
    ?_
  exact hbase () _ (Words.lt_size_of_is hcolon) (Nat.le_succ n)

theorem method_tracks (hg : Alike c g g' start d values) {h : Head} (hh : h.Flat) (name : Name)
    (hr : c.Ready d lo) (hstart : start ≤ lo) :
    Tracks c (g.method h name) (g'.method h name) d lo (c.Part d 7 lo) := by
  refine (typeParameters_tracks hr.le_size).bind fun _ n₁ hn₁ hle₁ => ?_
  have hr₁ := hr.mono hle₁ hn₁
  refine (expectParameters_tracks hg hr₁ (by omega)).bind fun parameters n₂ hn₂ hparameters => ?_
  refine (constraints_tracks hn₂).bind fun _ n₃ hn₃ hle₃ => ?_
  have hr₃ := hr₁.mono (Nat.le_trans hparameters.1 hle₃) hn₃
  refine (memberBody_tracks hg hr₃ (by omega)).bind fun body hi hhi hbody => ?_
  exact Head.named_tracks hh name hhi (hparameters.append (hbody.mono hle₃ (by omega))) hle₁

theorem operator_tracks (hg : Alike c g g' start d values) {h : Head} (hh : h.Flat)
    (hr : c.Ready d lo) (hlo : lo < c.words.size) (hstart : start ≤ lo) :
    Tracks c (g.operator h) (g'.operator h) d lo (c.Part d 7 lo) := by
  refine .bump ((eat_tracks .checkedKw hlo).bind fun _ n hn hle => ?_)
  refine (skipWhile_tracks _ hn).bind fun _ m hm hskip => ?_
  have hlom : lo ≤ m := by omega
  refine parametersAndBody_tracks hg (hr.mono hlom hm) (by omega) fun ts hi hhi hts => ?_
  exact Head.unnamed_tracks hh hhi hts hlom

theorem indexer_tracks (hg : Alike c g g' start d values) {h : Head} (hh : h.Flat)
    (hr : c.Ready d lo) (hlo : lo < c.words.size) (hstart : start ≤ lo) :
    Tracks c (g.indexer h) (g'.indexer h) d lo (c.Part d 7 lo) := by
  refine .bump (.look ?_)
  extract_lets rest rest'
  have hrest : ∀ parameters m, m ≤ c.words.size → c.Parts d 6 (lo + 1) parameters m →
      Tracks c (rest parameters) (rest' parameters) d m (c.Part d 7 lo) := by
    intro parameters m hm hparameters
    refine (propertyBody_tracks hg (hr.mono (by omega) hm) (by omega)).bind fun body hi
      hhi hbody => ?_
    exact Head.unnamed_tracks hh hhi (hparameters.append (hbody.mono (Nat.le_refl m) (by omega)))
      (Nat.le_succ lo)
  refine .ite (fun hopen => ?_) fun _ => .expected (hrest [] _ hlo ⟨Nat.le_refl _, by simp⟩)
  have hr₁ := hr.mono (by omega : lo ≤ lo + 1 + 1) (Words.lt_size_of_is hopen)
  refine (parameterList_tracks hg .indexer hr₁ (by omega) fun _ _ _ => ⟨_, _, rfl⟩).bind fun t
    m hm ht => ?_
  refine hrest [t] m hm ?_
  exact ⟨Nat.le_of_lt ht.1, by simpa using ht.2.low_values⟩

/-! ### Members with a type

The type is passed over, and what follows tells the kind. At the very start of a member nothing is
asked for but a namespace. -/

/-- A field, a property or a method, by what follows the name. -/
theorem namedMember_tracks (hg : Alike c g g' start d values) {h : Head} (hh : h.Flat)
    (typeStart : Nat) (name : Name) (hr : c.Ready d lo) (hstart : start ≤ lo) :
    Tracks c (g.namedMember h typeStart name)
      (g'.namedMember h typeStart name) d lo (c.Part d 7 lo) := by
  refine .look ?_
  have hproperty : Tracks c (g.propertyBody >>= fun ts => h.named .propertyDeclaration name ts)
      (g'.propertyBody >>= fun ts => h.named .propertyDeclaration name ts) d lo
      (c.Part d 7 lo) := by
    refine (propertyBody_tracks hg hr hstart).bind fun body hi hhi hbody => ?_
    exact Head.named_tracks hh name hhi (hbody.mono (Nat.le_refl lo) (by omega)) (Nat.le_refl lo)
  split
  · exact method_tracks hg hh name hr hstart
  · exact method_tracks hg hh name hr hstart
  · exact hproperty
  · exact hproperty
  · refine (declarators_tracks hg typeStart name hr hstart).bind fun declared mid hmid
      hdeclared => ?_
    refine (expect_tracks .semi hmid).bind fun _ hi hhi hle => ?_
    have hbelow : c.Parts d 6 lo [declared] mid := hdeclared.one (Nat.le_refl lo) (Nat.le_refl 6)
    exact Head.unnamed_tracks hh hhi ⟨Nat.le_trans hbelow.1 hle, hbelow.2⟩ (Nat.le_refl lo)

/-- A declaration that was read, as one that may be missing. -/
theorem some_tracks {p q : Parser Node} {mid : Nat} (hle : lo ≤ mid)
    (hp : Tracks c p q d mid (c.Part d 7 mid)) :
    Tracks c (p >>= fun t => pure (some t)) (q >>= fun t => pure (some t)) d mid fun t hi =>
      lo ≤ hi ∧ ∀ t' ∈ t, c.Declared d t' := by
  refine hp.bind fun t hi hhi ht => .pure hhi ⟨Nat.le_trans hle ht.1, ?_⟩
  rintro _ ⟨⟩
  exact ht.2.but

/-- Behind a type: an indexer, an operator, or a name. -/
theorem typedMember_tracks (hg : Alike c g g' start d values) {h : Head} (hh : h.Flat)
    (hr : c.Ready d lo) (hstart : start ≤ lo) :
    Tracks c (g.typedMember h) (g'.typedMember h) d lo fun t hi => lo ≤ hi ∧
      ∀ t' ∈ t, c.Declared d t' := by
  refine .look (.ite (fun hopen => ?_) fun _ => ?_)
  · simp only [Bool.and_eq_true] at hopen
    exact some_tracks (Nat.le_refl lo) (constructor_tracks hg hh hr hopen.2 hstart)
  refine (eat_tracks .refKw hr.le_size).bind fun found n hn hle => ?_
  extract_lets rest rest'
  -- from the type on, behind `ref` and `readonly`
  have hrest : ∀ u n, n ≤ c.words.size → lo ≤ n → Tracks c (rest u) (rest' u) d n fun t hi =>
      lo ≤ hi ∧ ∀ t' ∈ t, c.Declared d t' := by
    intro u n hn hlon
    refine .here ((skipType_tracks hn).bind fun found m hm hskip => .ite (fun _ => .look ?_)
      fun _ => ?_)
    · have hlom := Nat.le_trans hlon hskip.1
      have hr := hr.mono hlom hm
      split
      · exact some_tracks hlom (operator_tracks hg hh hr (Words.lt_size_of_kind? ‹_›) (by omega))
      · exact some_tracks hlom (indexer_tracks hg hh hr (Words.lt_size_of_kind? ‹_›) (by omega))
      · refine (memberName_tracks hm).bind fun name k hk hname => ?_
        have hlok := Nat.le_trans hlom hname.1
        have hr := hr.mono hname.1 hk
        cases name with
        | indexer => exact some_tracks hlok (indexer_tracks hg hh hr hname.2 (by omega))
        | operator => exact some_tracks hlok (operator_tracks hg hh hr hname.2 (by omega))
        | name name => exact some_tracks hlok (namedMember_tracks hg hh n name hr (by omega))
      · exact .expected (some_tracks hlom (Head.incomplete_tracks hh hm))
    · have hlom := Nat.le_trans hlon hskip.1
      refine .ite (fun _ => .pure hm ⟨hlom, by simp⟩) fun _ => ?_
      exact .expected (some_tracks hlom (Head.incomplete_tracks hh hm))
  refine .ite (fun _ => ?_) fun _ => hrest () n hn hle
  exact (eat_tracks .readonlyKw hn).bind fun _ m hm hle' => hrest () m hm (Nat.le_trans hle hle')

/-- A member depends on a namespace from where it starts, and otherwise on what stands after its
first word: no deeper only on what is of a lower level. -/
theorem memberDeclaration_tracks (hg : Alike c g g' lo d (Symbol.member.Below c.words lo))
    (hr : c.Ready d lo) (hnamespace : c.words.is lo .namespaceKw = true →
      Tracks c g.namespaceDeclaration g'.namespaceDeclaration d lo fun t hi => lo < hi ∧
      c.Declared d t) :
    Tracks c g.memberDeclaration g'.memberDeclaration d lo fun t hi => lo ≤ hi ∧
      ∀ t' ∈ t, c.Declared d t' := by
  refine .here ((attributeLists_tracks hr.le_size).bind fun attributes n hn hattributes => ?_)
  refine (modifiers_tracks hn).bind fun m k hk hle => .look ?_
  have hh : Head.Flat ⟨lo, attributes, m⟩ := hattributes.2.2
  have hlo := Nat.le_trans hattributes.1 hle
  have hr' := hr.mono hlo hk
  have hvalues : Alike c g g' lo d values := by
    refine hg.mono ?_
    rintro _ mid ⟨toComma, scope, rfl⟩
    exact Nat.zero_lt_one
  split
  · exact some_tracks hlo (typeDeclaration_tracks hvalues _ hh hr' (Words.lt_size_of_kind? ‹_›) hlo)
  · exact some_tracks hlo (typeDeclaration_tracks hvalues _ hh hr' (Words.lt_size_of_kind? ‹_›) hlo)
  · exact some_tracks hlo (typeDeclaration_tracks hvalues _ hh hr' (Words.lt_size_of_kind? ‹_›) hlo)
  · exact some_tracks hlo (enumDeclaration_tracks hvalues hh hr' (Words.lt_size_of_kind? ‹_›) hlo)
  · exact some_tracks hlo (delegateDeclaration_tracks hvalues hh hr'
      (Words.lt_size_of_kind? ‹_›) hlo)
  · -- the only word that may be ahead of a nonterminal without one before it
    rename_i hkind
    have hword : Tracks c g.namespaceDeclaration g'.namespaceDeclaration d k fun t hi => k < hi ∧
        c.Declared d t := by
      rcases Nat.lt_or_eq_of_le hlo with hlt | rfl
      · exact hg.namespaceDeclaration hr' hlt (Words.is_eq_true.2 hkind) Nat.zero_lt_one
      · exact hnamespace (Words.is_eq_true.2 hkind)
    refine hword.bind fun t hi hhi ht => .pure hhi ⟨by omega, ?_⟩
    rintro _ ⟨⟩
    exact ht.2
  · exact some_tracks hlo (eventDeclaration_tracks hvalues hh hr' (Words.lt_size_of_kind? ‹_›) hlo)
  · have hlt : k < c.words.size := Words.lt_size_of_kind? ‹_›
    have hr₁ := hr'.mono (Nat.le_succ k) hlt
    refine .bump ((typedVariables_tracks hvalues hr₁ (by omega)).bind
      fun declared hi hhi hdeclared => ?_)
    have hbelow := hdeclared.one (Nat.le_refl _) (Nat.le_refl 6)
    refine some_tracks (Nat.le_trans (by omega) hbelow.1) ?_
    exact Head.unnamed_tracks hh hhi ⟨Nat.le_refl hi, hbelow.2⟩ (Nat.le_refl hi)
  · exact some_tracks hlo (conversionOperator_tracks hvalues hh hr'
      (Words.lt_size_of_kind? ‹_›) hlo)
  · exact some_tracks hlo (conversionOperator_tracks hvalues hh hr'
      (Words.lt_size_of_kind? ‹_›) hlo)
  · exact some_tracks hlo (destructor_tracks hvalues hh hr' (Words.lt_size_of_kind? ‹_›) hlo)
  · have hlt : k < c.words.size := Words.lt_size_of_kind? ‹_›
    refine .look (.ite (fun _ => ?_) fun _ => ?_)
    · exact some_tracks hlo (typeDeclaration_tracks hvalues _ hh hr' hlt hlo)
    · refine (typedMember_tracks hvalues hh hr' hlo).mono fun t hi _ ht => ?_
      exact ⟨Nat.le_trans hlo ht.1, ht.2⟩
  · refine .here (.ite (fun _ => .pure hk ⟨hlo, by simp⟩) fun _ => ?_)
    exact .expected (some_tracks hlo (Head.incomplete_tracks hh hk))

end SharpTokens.Grammar.Nonterminals
