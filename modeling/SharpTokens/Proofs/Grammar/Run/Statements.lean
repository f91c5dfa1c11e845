import SharpTokens.Grammar.Statement
import SharpTokens.Proofs.Grammar.Run.Phrases

/-!
# Runs of statements

The same for statements. What follows a keyword is read after a word that was taken, so there a
statement may stand inside another one; the member or expression that a statement starts with is
read from where the statement starts.

Of the nonterminals that a statement asks for in its own construct, only those at its very start and
those behind `await` and behind attributes are not expressions. All other statements inside it are a
level deeper (`Nonterminals.embedded`).

What is shown of each parser is the same for all: it goes forward, its trees are low, and it is
alike under a looser limit. The statements differ in what may be asked of the nonterminals. A parser
with `values` among its premises asks for expressions only, and one with `may` asks for what its own
premises name.
-/

namespace SharpTokens.Grammar

open Grammar.Parser Loosened

variable {c : Loosened} {g g' : Nonterminals} {may : Symbol → Nat → Prop} {d lo hi start : Nat}

/-- A word was taken since `start`, from where a parser was ready. -/
structure Loosened.Inside (c : Loosened) (start d lo : Nat) : Prop where
  ready : c.Ready d lo
  deep : d < lo
  later : start < lo

theorem Loosened.Inside.mono (h : c.Inside start d lo) (hlo : lo ≤ hi) (hhi : hi ≤ c.words.size) :
    c.Inside start d hi :=
  ⟨h.ready.mono hlo hhi, Nat.lt_of_lt_of_le h.deep hlo, Nat.lt_of_lt_of_le h.later hlo⟩

/-- A word that was taken since the start. -/
theorem Loosened.Ready.inside (h : c.Ready d lo) (hstart : start ≤ lo) (hlo : lo < hi)
    (hhi : hi ≤ c.words.size) :
    c.Inside start d hi :=
  ⟨h.mono (Nat.le_of_lt hlo) hhi, Nat.lt_of_le_of_lt h.depth_le hlo, Nat.lt_of_le_of_lt hstart hlo⟩

namespace Nonterminals

/-! ## Statements and variables inside others

A statement that is embedded in another is a level deeper, and the variables of `for` and `using`
stand in parentheses that are no level. -/

/-- A statement inside another one is a level deeper. -/
theorem embedded_tracks (hg : Alike c g g' start d may) (h : c.Inside start d lo) :
    Tracks c g.embedded g'.embedded d lo (c.Part d 1 lo) := by
  refine .deeperNode h.ready ⟨c.words.le_pastGroup lo, low_skipped⟩ fun hdeep => ?_
  have hroom := room_succ hdeep
  have hready : c.Ready (d + 1) lo := ⟨h.deep, hdeep, h.ready.le_size⟩
  refine (hg.deeper.statement hready h.later trivial).mono fun t hi _ ht => ?_
  exact ⟨ht.1, ht.2.1.mono (by omega)⟩

/-- Variables are told by a type and a name. -/
theorem tryVariables_tracks (hg : Alike c g g' start d values) (h : c.Inside start d lo) :
    Tracks c g.tryVariables g'.tryVariables d lo fun t hi => c.Parts d 6 lo t.toList hi := by
  refine .lookWithin (by simp [Words.typeBeforeVariable?, Words.typeBeforeName?, c.types]) ?_
  split
  · rename_i past hpast
    have hlt := c.words.lt_of_typeBeforeVariable? hpast
    have hsize := Words.le_size_of_typeBeforeName? (Option.filter_eq_some_iff.1 hpast).1
      h.ready.le_size
    refine .here (.moveTo ((name_tracks hsize).bind fun name mid hmid hname => ?_))
    have hinside := h.mono (by omega) hmid
    refine (declarators_tracks hg lo name hinside.ready (Nat.le_of_lt hinside.later)).bind fun t hi
      hhi ht => ?_
    exact .pure hhi (ht.one (by omega) (Nat.le_refl 6))
  · exact .pure h.ready.le_size ⟨Nat.le_refl lo, by simp⟩

theorem variablesOrExpression_tracks (hg : Alike c g g' start d values) (h : c.Inside start d lo) :
    Tracks c g.variablesOrExpression g'.variablesOrExpression d lo (c.Parts d 6 lo) := by
  refine (tryVariables_tracks hg h).bind fun found mid hmid hfound => ?_
  cases found with
  | some declared => exact .pure hmid hfound
  | none =>
      have hinside := h.mono hfound.1 hmid
      refine (hg.value hinside.ready hinside.later false .statement).mono fun ts hi _ hts => ?_
      exact ⟨Nat.le_trans hfound.1 hts.1, fun t ht => (hts.2 t ht).low (by omega)⟩

theorem resources_tracks (hg : Alike c g g' start d values) (h : c.Inside start d lo) :
    Tracks c g.resources g'.resources d lo (c.Parts d 6 lo) := by
  refine (variablesOrExpression_tracks hg h).bind fun ts mid hmid hts => ?_
  exact (expect_tracks .rparen hmid).bind fun _ hi hhi hle =>
    .pure hhi ⟨Nat.le_trans hts.1 hle, hts.2⟩

theorem typedVariables_tracks (hg : Alike c g g' start d values) (h : c.Ready d lo)
    (hstart : start ≤ lo) :
    Tracks c g.typedVariables g'.typedVariables d lo (c.Part d 6 lo) := by
  refine .here ((expectType_tracks h.le_size).bind fun _ n hn hle => ?_)
  refine (name_tracks hn).bind fun name m hm hname => ?_
  refine (declarators_tracks hg lo name (h.mono (by omega) hm) (by omega)).bind fun t mid
    hmid ht => ?_
  exact (expect_tracks .semi hmid).bind fun _ hi hhi hmidhi => .pure hhi ⟨by omega, ht.2⟩

/-! ## Statements with a keyword

After the keyword: conditions in their parentheses, which are groups, and statements in levels of
their own. -/

theorem conditional_tracks (hg : Alike c g g' start d may) (h : c.Inside start d lo) :
    Tracks c g.conditional g'.conditional d lo (c.Parts d 7 lo) := by
  refine (condition_tracks hg h.ready (Nat.le_of_lt h.later)).bind fun condition mid hmid
    hcondition => ?_
  refine (embedded_tracks hg (h.mono hcondition.1 hmid)).bind fun body hi hhi hbody => .pure hhi ?_
  exact (hcondition.mono (Nat.le_refl lo) (by omega)).append
    (hbody.one (Nat.le_refl mid) (by omega))

theorem ifStatement_tracks (hg : Alike c g g' start d may) (h : c.Inside start d lo) :
    Tracks c g.ifStatement g'.ifStatement d lo (c.Parts d 7 lo) := by
  refine (conditional_tracks hg h).bind fun found mid hmid hfound => ?_
  refine .eat (fun helse => ?_) fun _ => .pure hmid hfound
  have hinside := h.mono (Nat.le_succ_of_le hfound.1) (Words.lt_size_of_is helse)
  refine (embedded_tracks hg hinside).bind fun body hi hhi hbody => .pure hhi ?_
  exact hfound.append (hbody.one (Nat.le_succ mid) (by omega))

theorem doStatement_tracks (hg : Alike c g g' start d may) (h : c.Inside start d lo) :
    Tracks c g.doStatement g'.doStatement d lo (c.Parts d 7 lo) := by
  refine (embedded_tracks hg h).bind fun body mid hmid hbody => ?_
  refine (expect_tracks .whileKw hmid).bind fun found n hn hmidn => ?_
  extract_lets rest
  have hrest : ∀ condition k, k ≤ c.words.size → c.Parts d 1 n condition k →
      Tracks c (rest condition) (rest condition) d k (c.Parts d 7 lo) := by
    intro condition k hk hcondition
    refine (expect_tracks .semi hk).bind fun _ hi hhi hkhi => .pure hhi ?_
    have hbelow := (hbody.one (Nat.le_refl lo) (by omega)).append
      (hcondition.mono hmidn (Nat.le_refl 1))
    exact ⟨Nat.le_trans hbelow.1 hkhi, fun t ht => (hbelow.2 t ht).mono (by omega)⟩
  refine .ite (fun _ => ?_) fun _ => hrest [] n hn ⟨Nat.le_refl n, by simp⟩
  have hinside := h.mono (Nat.le_trans hbody.1 hmidn) hn
  exact (condition_tracks hg hinside.ready (Nat.le_of_lt hinside.later)).bind hrest

/-- What stands between the parentheses is read in the same construct. -/
theorem forStatement_tracks (hg : Alike c g g' start d values) (h : c.Inside start d lo) :
    Tracks c g.forStatement g'.forStatement d lo (c.Parts d 7 lo) := by
  refine (expect_tracks .lparen h.ready.le_size).bind fun found n hn hle =>
    .ite (fun _ => .look ?_) fun _ => ?_
  · extract_lets rest rest'
    have hrest : ∀ first k, k ≤ c.words.size → c.Parts d 6 n first k →
        Tracks c (rest first) (rest' first) d k (c.Parts d 7 lo) := by
      intro first k hk hfirst
      have hvalues : ∀ {ts lo hi}, (lo ≤ hi ∧ ∀ t ∈ ts, c.Value d t) → c.Parts d 6 lo ts hi :=
        fun h => ⟨h.1, fun t ht => (h.2 t ht).low (by omega)⟩
      refine (expect_tracks .semi hk).bind fun _ k₁ hk₁ hle₁ => ?_
      have h₁ := h.mono (by omega) hk₁
      refine (expressionStatement_tracks hg h₁.ready h₁.later).bind fun test k₂ hk₂ htest => ?_
      have h₂ := h₁.mono htest.1 hk₂
      refine (hg.value h₂.ready h₂.later false .statement).bind fun next k₃ hk₃ hnext => ?_
      refine (expect_tracks .rparen hk₃).bind fun _ k₄ hk₄ hle₄ => ?_
      have h₄ := h₂.mono (Nat.le_trans hnext.1 hle₄) hk₄
      refine (embedded_tracks hg h₄).bind fun body hi hhi hbody => .pure hhi ?_
      have hheader := (hfirst.mono hle (Nat.le_refl 6)).append
        ((hvalues htest).mono hle₁ (Nat.le_refl 6))
      have hloop := (hheader.append (hvalues hnext)).append (hbody.one hle₄ (by omega))
      exact hloop.mono (Nat.le_refl lo) (by omega)
    refine .ite (fun _ => hrest [] n hn ⟨Nat.le_refl n, by simp⟩) fun _ => ?_
    exact (variablesOrExpression_tracks hg (h.mono hle hn)).bind hrest
  · refine (embedded_tracks hg (h.mono hle hn)).bind fun body hi hhi hbody => .pure hhi ?_
    exact hbody.one hle (by omega)

theorem fixedStatement_tracks (hg : Alike c g g' start d values) (h : c.Inside start d lo) :
    Tracks c g.fixedStatement g'.fixedStatement d lo (c.Parts d 7 lo) := by
  refine (expect_tracks .lparen h.ready.le_size).bind fun found n hn hle => ?_
  extract_lets rest rest'
  have hrest : ∀ found k, k ≤ c.words.size → c.Parts d 6 n found k →
      Tracks c (rest found) (rest' found) d k (c.Parts d 7 lo) := by
    intro found k hk hfound
    refine (embedded_tracks hg (h.mono (Nat.le_trans hle hfound.1) hk)).bind fun body hi hhi hbody
      => .pure hhi ?_
    exact (hfound.append (hbody.one (Nat.le_refl k) (by omega))).mono hle (by omega)
  refine .ite (fun _ => ?_) fun _ => hrest [] n hn ⟨Nat.le_refl n, by simp⟩
  exact (resources_tracks hg (h.mono hle hn)).bind hrest

/-- A statement node over parts that were read after its first word. -/
theorem statementNode_tracks {kind : NodeKind} {first lo' : Nat} {ts : List Node}
    (hhi : hi ≤ c.words.size) (hts : c.Parts d 7 lo' ts hi) (hlo : lo ≤ lo') :
    Tracks c (plain kind first ts) (plain kind first ts) d hi (c.Part d 8 lo) :=
  .node hhi ⟨Nat.le_trans hlo hts.1, Low.node hts.2⟩

/-- With parentheses it has a statement in it, and otherwise it declares variables. -/
theorem usingStatement_tracks (hg : Alike c g g' start d values) (first : Nat) (h : c.Ready d lo)
    (hlo : lo < c.words.size) (hstart : start ≤ lo) : Tracks c (g.usingStatement first)
    (g'.usingStatement first) d lo (c.Part d 8 lo) := by
  have hinside := h.inside hstart (Nat.lt_succ_self lo) hlo
  refine .bump (.eat (fun hopen => ?_) fun _ => ?_)
  · have hinside := hinside.mono (Nat.le_succ _) (Words.lt_size_of_is hopen)
    refine (resources_tracks hg hinside).bind fun found mid hmid hfound => ?_
    refine (embedded_tracks hg (hinside.mono hfound.1 hmid)).bind fun body hi hhi hbody => ?_
    have hbelow := hfound.append (hbody.one (Nat.le_refl mid) (by omega))
    exact statementNode_tracks hhi (hbelow.mono (Nat.le_refl _) (by omega)) (by omega)
  · refine (tryVariables_tracks hg hinside).bind fun found mid hmid hfound => ?_
    cases found with
    | some declared =>
        refine (expect_tracks .semi hmid).bind fun _ hi hhi hle => ?_
        have hbelow := hfound.mono (Nat.le_refl _) (by omega : 6 ≤ 7)
        exact statementNode_tracks hhi ⟨Nat.le_trans hbelow.1 hle, hbelow.2⟩ (Nat.le_succ lo)
    | none =>
        have hinside := hinside.mono hfound.1 hmid
        refine (expressionStatement_tracks hg hinside.ready hinside.later).bind fun ts hi
          hhi hts => ?_
        refine statementNode_tracks hhi ⟨hts.1, fun t ht => (hts.2 t ht).low (by omega)⟩ ?_
        exact Nat.le_of_succ_le hfound.1

/-- A handler, its condition and its block. -/
theorem catchStep_tracks (hg : Alike c g g' start d may) (found : Array Node) (h : c.Ready d lo)
    (hstart : start ≤ lo) :
    Tracks c (g.catchStep found) (g'.catchStep found) d lo
      (Tracks.Collects (Low (c.room d + 1)) (fun _ => True) found lo) := by
  refine .eat (fun hcatch => .look ?_) fun _ => .pure h.le_size ⟨Nat.le_refl lo, trivial, rfl⟩
  extract_lets block filters block' filters'
  have hblock : ∀ filter k, k ≤ c.words.size → c.Parts d 1 (lo + 1) filter k →
      Tracks c (block filter) (block' filter) d k
        (Tracks.Collects (Low (c.room d + 1)) (fun _ => True) found lo) := by
    intro filter k hk hfilter
    have hready := h.mono (Nat.le_of_succ_le hfilter.1) hk
    refine (expectBlock_tracks hg hready (by omega)).bind fun body hi hhi hbody => .pure hhi ?_
    refine ⟨by omega, filter ++ body, by simp, ?_⟩
    exact List.forall_mem_append.2 ⟨hfilter.2, hbody.2⟩
  have hfilters : ∀ u k, k ≤ c.words.size → lo + 1 ≤ k →
      Tracks c (filters u) (filters' u) d k
      (Tracks.Collects (Low (c.room d + 1)) (fun _ => True) found lo) := by
    intro u k hk hle
    refine .look (.ite (fun hwhen => .bump ?_) fun _ => hblock [] k hk ⟨hle, by simp⟩)
    have hlt := Words.lt_size_of_isContextual hwhen
    refine (condition_tracks hg (h.mono (by omega) hlt) (by omega)).bind fun filter hi hhi
      hfilter => ?_
    exact hblock filter hi hhi (hfilter.mono (by omega) (Nat.le_refl 1))
  have hlt := Words.lt_size_of_is hcatch
  refine .ite (fun _ => .skipGroup ?_) fun _ => hfilters () _ hlt (Nat.le_refl _)
  exact hfilters () _ (Words.pastGroup_le_size hlt) (c.words.le_pastGroup _)

theorem catchClauses_tracks (hg : Alike c g g' start d may) (h : c.Ready d lo)
    (hstart : start ≤ lo) :
    Tracks c g.catchClauses g'.catchClauses d lo (c.Parts d 1 lo) := by
  refine Tracks.bind (.collect _ _ h.le_size (by simp) fun found mid hle hmid =>
    catchStep_tracks hg found (h.mono hle hmid) (by omega)) ?_
  exact fun found hi hhi hfound => .pure hhi ⟨hfound.1, hfound.2.2⟩

theorem tryStatement_tracks (hg : Alike c g g' start d may) (h : c.Inside start d lo) :
    Tracks c g.tryStatement g'.tryStatement d lo (c.Parts d 7 lo) := by
  have hstart := Nat.le_of_lt h.later
  refine (expectBlock_tracks hg h.ready hstart).bind fun body n hn hbody => ?_
  refine (catchClauses_tracks hg (h.ready.mono hbody.1 hn) (by omega)).bind fun handlers m hm
    hhandlers => ?_
  have hfound := hbody.append hhandlers
  refine .eat (fun hfinally => ?_) fun _ => .pure hm ?_
  · have hready := h.ready.mono (Nat.le_succ_of_le hfound.1) (Words.lt_size_of_is hfinally)
    refine (expectBlock_tracks hg hready (by omega)).bind fun last hi hhi hlast => .pure hhi ?_
    exact (hfound.append (hlast.mono (Nat.le_succ m) (Nat.le_refl 1))).mono
      (Nat.le_refl lo) (by omega)
  · exact (hfound.append ⟨Nat.le_refl m, by simp⟩).mono (Nat.le_refl lo) (by omega)

theorem caseLabel_tracks (hlo : lo ≤ c.words.size) :
    Tracks c caseLabel caseLabel d lo fun _ hi => lo ≤ hi := by
  refine (skipGroupsWhile_tracks _ hlo).bind fun _ mid hmid hle => ?_
  exact (expect_tracks .colon hmid).bind fun _ hi hhi hle' => .pure hhi (Nat.le_trans hle hle')

/-- A label is passed over, and a statement is read. -/
theorem switchItem_tracks (hg : Alike c g g' start d may) {k : Kind} (h : c.Ready d lo)
    (hk : c.words.kind? lo = some k) (hstart : start < lo) (hmay : may .statement lo) :
    Tracks c (g.switchItem k) (g'.switchItem k) d lo fun ts hi => lo < hi ∧
      ∀ t ∈ ts, Low (c.room d + 9) t := by
  have hlo := Words.lt_size_of_kind? hk
  refine .ite (fun _ => .bump ?_) fun _ => .look ?_
  · exact (caseLabel_tracks hlo).bind fun _ hi hhi hle => .pure hhi ⟨hle, by simp⟩
  · refine .ite (fun hcolon => .bump (.bump (.pure ?_ ⟨by omega, by simp⟩))) fun _ => ?_
    · simp only [Bool.and_eq_true] at hcolon
      exact Words.lt_size_of_is hcolon.2
    · exact orUnexpected_tracks hlo ((hg.statement h hstart hmay).mono fun t hi _ ht =>
        ⟨ht.1, ht.2.1⟩)

theorem switchBlock_tracks (hg : Alike c g g' start d may) (h : c.Ready d lo)
    (hstart : start ≤ lo) :
    Tracks c g.switchBlock g'.switchBlock d lo (c.Parts d 1 lo) := by
  refine .look (.ite (fun hopen => ?_) fun _ =>
    .expected (.pure h.le_size ⟨Nat.le_refl lo, by simp⟩))
  refine .deeper h ⟨c.words.le_pastGroup lo, by simpa using low_skipped⟩ fun hdeep => ?_
  have hroom := room_succ hdeep
  refine (braced_tracks (Words.lt_size_of_is hopen) fun k mid hmid hsize hk =>
    switchItem_tracks hg.deeper (h.deeper hdeep hmid (Nat.le_of_lt hsize)) hk (by omega)
      trivial).mono fun ts hi _ hts => ?_
  exact ⟨Nat.le_of_lt hts.1, fun t ht => (hts.2 t ht).mono (by omega)⟩

/-! ## Declarations and expressions

A statement without a keyword is told by looking for a type, a name and what may follow. -/

theorem localModifierStep_tracks (found : Modifiers) (hlo : lo ≤ c.words.size) :
    Tracks c (localModifierStep found) (localModifierStep found) d lo (Tracks.Onward lo) := by
  refine .look ?_
  split
  · rename_i k hk
    have hlt := Words.lt_size_of_kind? (Option.filter_eq_some_iff.1 hk).1
    exact .bump (.pure hlt ⟨Nat.lt_succ_self lo, trivial⟩)
  · exact .pure hlo ⟨Nat.le_refl lo, trivial⟩

theorem localModifiers_tracks (hlo : lo ≤ c.words.size) :
    Tracks c localModifiers localModifiers d lo fun _ hi => lo ≤ hi :=
  .onward hlo fun found _ _ hmid => localModifierStep_tracks found hmid

theorem skipRef_tracks (hlo : lo ≤ c.words.size) :
    Tracks c skipRef skipRef d lo fun _ hi => lo ≤ hi := by
  refine (eat_tracks .refKw hlo).bind fun found n hn hle => ?_
  extract_lets rest
  have hrest : ∀ u k, k ≤ c.words.size → n ≤ k → Tracks c (rest u) (rest u) d k fun _ hi =>
      lo ≤ hi := by
    intro u k hk hnk
    refine .look (.ite (fun hscoped => .bump ?_) fun _ => .pure hk (Nat.le_trans hle hnk))
    rw [Words.isScoped, Bool.and_eq_true] at hscoped
    refine (eat_tracks .refKw (Words.lt_size_of_isContextual hscoped.1)).bind fun _ hi
      hhi hkhi => ?_
    exact .pure hhi (by omega)
  refine .ite (fun _ => ?_) fun _ => hrest () n hn (Nat.le_refl n)
  exact (eat_tracks .readonlyKw hn).bind fun _ k hk hnk => hrest () k hk hnk

/-! ### Functions and expressions

Behind the modifiers a name tells the two apart. Where there is none, the parser goes back to before
the modifiers, and still has taken no word of its own; so the expression is read from where the
statement starts. -/

theorem localFunction_tracks (hg : Alike c g g' start d values) (first : Nat) (m : Modifiers)
    (h : c.Ready d lo) (hstart : start ≤ lo) :
    Tracks c (g.localFunction first m) (g'.localFunction first m) d lo (c.Part d 8 lo) := by
  refine (name_tracks h.le_size).bind fun name n hn hname => ?_
  refine (typeParameters_tracks hn).bind fun _ n₁ hn₁ hle₁ => ?_
  have h₁ := h.mono (Nat.le_trans hname.1 hle₁) hn₁
  refine (expectParameters_tracks hg h₁ (by omega)).bind fun parameters n₂ hn₂ hparameters => ?_
  refine (constraints_tracks hn₂).bind fun _ n₃ hn₃ hle₃ => ?_
  have h₃ := h₁.mono (Nat.le_trans hparameters.1 hle₃) hn₃
  refine (memberBody_tracks hg h₃ (by omega)).bind fun body hi hhi hbody => ?_
  have hbelow := hparameters.append (hbody.mono hle₃ (by omega))
  exact .node hhi ⟨by omega, (Low.node hbelow.2).mono (by omega)⟩

/-- An expression is read from `again` on, wherever the attempt at a declaration led. -/
theorem bareExpression_tracks (first : Nat) {again : Nat}
    (hexpression : Tracks c (g.expression false .statement) (g'.expression false .statement) d again
      fun ts hi =>
      again ≤ hi ∧ ∀ t ∈ ts, c.Value d t) :
    Tracks c (g.bareExpression first again)
      (g'.bareExpression first again) d lo (c.Part d 8 again) := by
  refine .moveTo (hexpression.bind fun found mid hmid hfound => .here ?_)
  have hnode : ∀ u : Unit, ∀ hi, hi ≤ c.words.size → mid ≤ hi →
      Tracks c (plain .statement first found)
      (plain .statement first found) d hi (c.Part d 8 again) := by
    intro _ hi hhi hle
    refine statementNode_tracks hhi ⟨Nat.le_trans hfound.1 hle, fun t ht => ?_⟩ (Nat.le_refl again)
    exact (hfound.2 t ht).low (by omega)
  refine .ite (fun _ => ?_) fun _ => ?_
  · exact (unexpected_tracks hmid).bind fun _ hi hhi hle => hnode () hi hhi hle.1
  · exact (expect_tracks .semi hmid).bind fun _ hi hhi hle => hnode () hi hhi hle

/-- A variable, a local function, or an expression from where the statement started. -/
theorem variableOrExpression_tracks (hg : Alike c g g' start d values) (first : Nat)
    (h : c.Ready d lo) (hstart : start ≤ lo)
    (hexpression : Tracks c (g.expression false .statement) (g'.expression false .statement) d lo
      fun ts hi =>
      lo ≤ hi ∧ ∀ t ∈ ts, c.Value d t) :
    Tracks c (g.variableOrExpression first)
      (g'.variableOrExpression first) d lo (c.Part d 8 lo) := by
  refine .here ((localModifiers_tracks h.le_size).bind fun m n hn hle => ?_)
  refine (skipRef_tracks hn).bind fun _ typeStart htype hle' => .here ?_
  refine .lookWithin (by simp [Words.typeBeforeName?, c.types]) ?_
  split
  · rename_i past hpast
    have hlt := c.words.lt_of_typeBeforeName? hpast
    have hsize := Words.le_size_of_typeBeforeName? hpast htype
    refine .look (.ite (fun _ => .moveTo ?_) fun _ => .look ?_)
    · refine (name_tracks hsize).bind fun name k hk hname => ?_
      refine (declarators_tracks hg typeStart name (h.mono (by omega) hk) (by omega)).bind fun t mid
        hmid ht => ?_
      refine (expect_tracks .semi hmid).bind fun _ hi hhi hle => ?_
      have hbelow : c.Parts d 7 lo [t] mid := ht.one (by omega) (by omega)
      exact statementNode_tracks hhi ⟨by omega, hbelow.2⟩ (Nat.le_refl lo)
    · refine .ite (fun _ => .moveTo ?_) fun _ => bareExpression_tracks first hexpression
      refine (localFunction_tracks hg first m (h.mono (by omega) hsize) (by omega)).mono fun t
        hi _ ht => ?_
      exact ⟨by omega, ht.2⟩
  · exact bareExpression_tracks first hexpression

/-- The loop behind `await` has no attributes of its own. -/
theorem awaited_tracks (hg : Alike c g g' start d may) (h : c.Ready d lo) (hstart : start ≤ lo)
    (hnext : c.words.is (lo + 1) .foreachKw = true) (hmay : may .statement (lo + 1)) :
    Tracks c g.statement g'.statement d (lo + 1) (c.Part d 8 (lo + 1)) := by
  have hready := h.mono (Nat.le_succ lo) (Nat.le_of_lt (Words.lt_size_of_is hnext))
  refine (hg.statement hready (Nat.lt_succ_of_le hstart) hmay).mono fun t hi _ ht =>
    ⟨ht.1, ht.2.2 ?_⟩
  simp [Words.is_eq_false, Words.is_eq_true.1 hnext]

/-- As above, behind `await` as well. -/
theorem declarationOrExpression_tracks (hg : Alike c g g' start d values) (first : Nat)
    (h : c.Ready d lo) (hstart : start ≤ lo)
    (hexpression : Tracks c (g.expression false .statement) (g'.expression false .statement) d lo
      fun ts hi =>
      lo ≤ hi ∧ ∀ t ∈ ts, c.Value d t)
    (hloop : c.words.isContextual lo "await" = true → c.words.is (lo + 1) .foreachKw = true →
      Tracks c g.statement g'.statement d (lo + 1) (c.Part d 8 (lo + 1))) :
    Tracks c (g.declarationOrExpression first)
      (g'.declarationOrExpression first) d lo (c.Part d 8 lo) := by
  have hinside : ∀ {hi}, lo < hi → hi ≤ c.words.size → c.Inside start d hi := h.inside hstart
  -- a label, `yield`, `await using`, `await foreach`, or none of these
  refine .look (.ite (fun hlabel => .bump (.bump (.look ?_))) fun _ => .look ?_)
  · simp only [Bool.and_eq_true] at hlabel
    have hsize := Words.lt_size_of_is hlabel.2
    refine .ite (fun _ => ?_) fun _ => ?_
    · exact statementNode_tracks hsize ⟨Nat.le_refl _, by simp⟩ (by omega)
    · refine (embedded_tracks hg (hinside (by omega) hsize)).bind fun body hi hhi hbody => ?_
      exact statementNode_tracks hhi (hbody.one (Nat.le_refl _) (by omega)) (by omega)
  refine .ite (fun hyield => .bump (.bump ?_)) fun _ => .look ?_
  · simp only [Bool.and_eq_true] at hyield
    have hinside := hinside (by omega) (Words.lt_size_of_isAny hyield.2)
    refine (expressionStatement_tracks hg hinside.ready hinside.later).bind fun ts hi hhi hts => ?_
    exact statementNode_tracks hhi ⟨hts.1, fun t ht => (hts.2 t ht).low (by omega)⟩ (by omega)
  refine .ite (fun hawait => .bump ?_) fun _ => .look ?_
  · simp only [Bool.and_eq_true] at hawait
    have hsize := Words.lt_size_of_is hawait.2
    refine (usingStatement_tracks hg first (h.mono (Nat.le_succ lo) (by omega)) hsize
      (by omega)).mono ?_
    exact fun t hi _ ht => ⟨Nat.le_of_succ_le ht.1, ht.2⟩
  refine .ite (fun hawait => .bump ?_) fun _ => variableOrExpression_tracks hg first h
    hstart hexpression
  simp only [Bool.and_eq_true] at hawait
  exact (hloop hawait.1 hawait.2).mono fun t hi _ ht => ⟨Nat.le_of_succ_le ht.1, ht.2⟩

/-! ## Statements

All forms together, from the word ahead. -/

theorem afterKeyword_tracks {rest rest' : Parser (List Node)} (first : Nat)
    (hrest : Tracks c rest rest' d (lo + 1) (c.Parts d 7 (lo + 1))) :
    Tracks c (afterKeyword first rest) (afterKeyword first rest') d lo (c.Part d 8 lo) :=
  .bump (hrest.bind fun _ _ hhi hts => statementNode_tracks hhi hts (Nat.le_succ lo))

/-- A member, a declaration or an expression. -/
theorem otherStatement_tracks (hg : Alike c g g' start d values) (first : Nat) (h : c.Ready d lo)
    (hstart : start ≤ lo) (hmember : Tracks c g.member g'.member d lo fun t hi => lo ≤ hi ∧
      ∀ t' ∈ t, c.Declared d t')
    (hexpression : Tracks c (g.expression false .statement) (g'.expression false .statement) d lo
      fun ts hi =>
      lo ≤ hi ∧ ∀ t ∈ ts, c.Value d t)
    (hloop : c.words.isContextual lo "await" = true → c.words.is (lo + 1) .foreachKw = true →
      Tracks c g.statement g'.statement d (lo + 1) (c.Part d 8 (lo + 1))) :
    Tracks c (g.otherStatement first) (g'.otherStatement first) d lo (c.Part d 8 lo) := by
  refine .look (.ite (fun _ => ?_) fun _ => declarationOrExpression_tracks hg first h hstart
    hexpression hloop)
  refine hmember.bind fun member hi hhi hm => ?_
  cases member with
  | some member => exact .pure hhi ⟨hm.1, (hm.2 member rfl).low (Nat.le_refl _)⟩
  | none => exact statementNode_tracks hhi ⟨hm.1, by simp⟩ (Nat.le_refl lo)

/-- A statement depends on a member or an expression from where it starts, and otherwise on what
stands after its first word: no deeper only on what is of a lower level. -/
theorem statementBody_tracks (hg : Alike c g g' lo d (Symbol.statement.Below c.words lo))
    (h : c.Ready d lo) (hmember : Tracks c g.member g'.member d lo fun t hi => lo ≤ hi ∧
      ∀ t' ∈ t, c.Declared d t')
    (hexpression : Tracks c (g.expression false .statement) (g'.expression false .statement) d lo
      fun ts hi =>
      lo ≤ hi ∧ ∀ t ∈ ts, c.Value d t) :
    Tracks c g.statementBody g'.statementBody d lo fun t hi =>
      lo ≤ hi ∧ Low (c.room d + 9) t ∧ (c.words.is lo .lbracket = false →
        Low (c.room d + 8) t) := by
  have hplain : ∀ {p q : Parser Node}, Tracks c p q d lo (c.Part d 8 lo) →
      Tracks c p q d lo fun t hi =>
      lo ≤ hi ∧ Low (c.room d + 9) t ∧ (c.words.is lo .lbracket = false → Low (c.room d + 8) t) :=
    fun hp => hp.mono fun t hi _ ht => ⟨ht.1, ht.2.mono (by omega), fun _ => ht.2⟩
  have hvalues : Alike c g g' lo d values := by
    refine hg.mono ?_
    rintro _ mid ⟨toComma, scope, rfl⟩
    exact Nat.lt_of_lt_of_le Nat.zero_lt_two (Symbol.two_le_level_statement c.words lo)
  have hloop : c.words.isContextual lo "await" = true → c.words.is (lo + 1) .foreachKw = true →
      Tracks c g.statement g'.statement d (lo + 1) (c.Part d 8 (lo + 1)) :=
    fun hawait hnext => awaited_tracks hg h (Nat.le_refl lo) hnext
      (Symbol.below_of_await hawait hnext)
  -- most forms are a keyword and what follows it
  have hkeyword : ∀ {k : Kind} {rest rest' : Parser (List Node)}, c.words.kind? lo = some k →
      (c.Inside lo d (lo + 1) → Tracks c rest rest' d (lo + 1) (c.Parts d 7 (lo + 1))) →
      Tracks c (afterKeyword lo rest) (afterKeyword lo rest') d lo fun t hi =>
        lo ≤ hi ∧ Low (c.room d + 9) t ∧ (c.words.is lo .lbracket = false →
          Low (c.room d + 8) t) := by
    intro k rest rest' hk hrest
    have hlt := Words.lt_size_of_kind? hk
    exact hplain
      (afterKeyword_tracks lo (hrest (h.inside (Nat.le_refl lo) (Nat.lt_succ_self lo) hlt)))
  have hnothing : ∀ hi, hi ≤ c.words.size → lo ≤ hi →
      Tracks c (plain .statement lo []) (plain .statement lo []) d hi (c.Part d 8 lo) :=
    fun hi hhi hle => statementNode_tracks hhi ⟨hle, by simp⟩ (Nat.le_refl lo)
  have hempty := hplain ((expected_tracks .statement h.le_size).bind fun _ hi hhi heq =>
    hnothing hi hhi (Nat.le_of_eq heq.symm))
  have hstray := hplain ((unexpected_tracks h.le_size).bind fun _ hi hhi hle =>
    hnothing hi hhi hle.1)
  have hvalue : c.Inside lo d (lo + 1) →
      Tracks c g.expressionStatement g'.expressionStatement d (lo + 1) (c.Parts d 7 (lo + 1)) := by
    intro hinside
    refine (expressionStatement_tracks hvalues hinside.ready hinside.later).mono fun ts
      hi _ hts => ?_
    exact ⟨hts.1, fun t ht => (hts.2 t ht).low (by omega)⟩
  have hjump : ∀ hinside : c.Inside lo d (lo + 1), Tracks c (expect .semi >>= fun _ => pure [])
      (expect .semi >>= fun _ => pure []) d (lo + 1) (c.Parts d 7 (lo + 1)) := by
    intro hinside
    exact (expect_tracks .semi hinside.ready.le_size).bind fun _ hi hhi hle =>
      .pure hhi ⟨hle, by simp⟩
  refine .here (.look ?_)
  split
  · exact hempty
  · exact hempty
  · refine hplain ((block_tracks hg h (Words.lt_size_of_kind? ‹_›) (Nat.le_refl lo)).mono
      fun t hi _ ht => ?_)
    exact ⟨Nat.le_of_lt ht.1, ht.2.mono (by omega)⟩
  · exact hkeyword ‹_› fun hinside => .pure hinside.ready.le_size ⟨Nat.le_refl _, by simp⟩
  · exact hkeyword ‹_› fun hinside => ifStatement_tracks hg hinside
  · exact hkeyword ‹_› fun hinside => conditional_tracks hg hinside
  · exact hkeyword ‹_› fun hinside => conditional_tracks hg hinside
  · exact hkeyword ‹_› fun hinside => conditional_tracks hg hinside
  · exact hkeyword ‹_› fun hinside => doStatement_tracks hg hinside
  · refine hkeyword ‹_› fun hinside => ?_
    refine (condition_tracks hg hinside.ready (Nat.le_succ lo)).bind fun condition mid hmid
      hcondition => ?_
    have hready := hinside.ready.mono hcondition.1 hmid
    refine (switchBlock_tracks hg hready (by omega)).bind fun ts hi hhi hts => .pure hhi ?_
    exact (hcondition.append hts).mono (Nat.le_refl _) (by omega)
  · exact hkeyword ‹_› fun hinside => forStatement_tracks hvalues hinside
  · exact hplain (usingStatement_tracks hvalues lo h (Words.lt_size_of_kind? ‹_›) (Nat.le_refl lo))
  · exact hkeyword ‹_› fun hinside => fixedStatement_tracks hvalues hinside
  · exact hkeyword ‹_› fun hinside => tryStatement_tracks hg hinside
  · exact hkeyword ‹_› hvalue
  · exact hkeyword ‹_› hvalue
  · exact hkeyword ‹_› hvalue
  · exact hkeyword ‹_› hjump
  · exact hkeyword ‹_› hjump
  · have hinside := h.inside (Nat.le_refl lo) (Nat.lt_succ_self lo) (Words.lt_size_of_kind? ‹_›)
    refine hplain (.bump ((typedVariables_tracks hvalues hinside.ready (Nat.le_succ lo)).bind
      fun t hi hhi ht => ?_))
    exact statementNode_tracks hhi (ht.one (Nat.le_refl _) (by omega)) (Nat.le_succ lo)
  · exact hstray
  · exact hstray
  · exact hstray
  · exact hstray
  · -- attributes take a word, and no other ones follow them
    rename_i hk
    refine (attributeLists_tracks h.le_size).bind fun attributes mid hmid hattributes => .look ?_
    have hlt : lo < mid := by
      refine Nat.lt_of_le_of_ne hattributes.1 fun heq => ?_
      rw [← heq] at hattributes
      exact Words.is_eq_false.1 hattributes.2.1 hk
    have hnode : ∀ ts hi, hi ≤ c.words.size → mid ≤ hi → (∀ t ∈ ts, Low (c.room d + 8) t) →
        Tracks c (plain .statement lo (attributes ++ ts)) (plain .statement lo (attributes ++ ts)) d
        hi fun t hi =>
          lo ≤ hi ∧ Low (c.room d + 9) t ∧ (c.words.is lo .lbracket = false →
            Low (c.room d + 8) t) := by
      intro ts hi hhi hle hts
      refine .node hhi ⟨by omega, Low.node ?_, by simp [Words.is, hk]⟩
      exact List.forall_mem_append.2 ⟨fun t ht => (hattributes.2.2 t ht).mono (by omega), hts⟩
    refine .ite (fun _ => ?_) fun _ => hnode [] mid hmid (Nat.le_refl mid) (by simp)
    have hlower := Symbol.below_of_attributes (Words.is_eq_true.2 hk) hattributes.2.1
    refine (hg.statement (h.mono hattributes.1 hmid) hlt hlower).bind fun t hi hhi ht => ?_
    exact hnode [t] hi hhi ht.1 (by simpa using ht.2.2 hattributes.2.1)
  · refine .look (.ite (fun hblock => hkeyword ‹_› fun hinside => ?_) fun _ => ?_)
    · simp only [Bool.and_eq_true] at hblock
      refine (block_tracks hg hinside.ready (Words.lt_size_of_is hblock.2) (Nat.le_succ lo)).bind ?_
      exact fun t hi hhi ht => .pure hhi ⟨Nat.le_of_lt ht.1, by simpa using ht.2.mono (by omega)⟩
    · exact hplain (otherStatement_tracks hvalues lo h (Nat.le_refl lo) hmember hexpression hloop)

end Nonterminals

end SharpTokens.Grammar
