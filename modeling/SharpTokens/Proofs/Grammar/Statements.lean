import SharpTokens.Grammar.Statement
import SharpTokens.Proofs.Grammar.Phrases

/-!
# Statements lie over their words

The same for statements. Where a statement that looked like a declaration turns out to be an
expression, the parser goes back to its start, but it has read no node by then.

A statement that started before the place where its parser is called lies from there on
(`PlacesFrom`): a keyword or some modifiers were taken first.
-/

namespace SharpTokens.Grammar.Nonterminals

open Grammar.Parser

variable {g : Nonterminals} {input : Input} {lo : Nat}

/-- The node that a parser reads lies from `first` on, where the construct started before. -/
def PlacesFrom (first : Nat) (p : Parser Node) (input : Input) : Prop :=
  ∀ lo, first ≤ lo → Reads p input lo fun t hi => Placed input.words first hi [t]

theorem embedded_places (hg : g.Orderly input) : Places g.embedded input :=
  deeperNode_places hg.statement

theorem tryVariables_places (hg : g.Orderly input) : PlacesAny g.tryVariables input := by
  refine fun lo => .lookWithin ?_
  split
  · rename_i past hpast
    have hlt := input.words.lt_of_typeBeforeVariable? hpast
    refine .here (.moveTo (name_reads.bind fun name mid hname => ?_))
    exact (declarators_places hg (Nat.le_of_lt hlt) hname).bind fun t hi ht => .pure ht
  · exact .pure (.nil (Nat.le_refl lo))

theorem variablesOrExpression_places (hg : g.Orderly input) :
    PlacesAll g.variablesOrExpression input := by
  refine fun lo => (tryVariables_places hg lo).bind fun found mid hfound => ?_
  cases found with
  | some declared => exact .pure hfound
  | none =>
      refine (hg.expression false .statement mid).mono fun ts hi hts => ?_
      exact hts.mono hfound.le (Nat.le_refl hi)

theorem resources_places (hg : g.Orderly input) : PlacesAll g.resources input := by
  refine fun lo => (variablesOrExpression_places hg lo).bind fun ts mid hts => ?_
  exact (expect_advances .rparen).andThen fun _ hi hhi => .pure (hts.mono (Nat.le_refl lo) hhi)

theorem typedVariables_places (hg : g.Orderly input) : Places g.typedVariables input := by
  refine fun lo => .here (expectType_advances.andThen fun _ n hn => ?_)
  refine name_reads.bind fun name m hname => ?_
  refine (declarators_places hg hn hname).bind fun t mid ht => ?_
  exact (expect_advances .semi).andThen fun _ hi hhi => .pure (ht.mono (Nat.le_refl lo) hhi)

/-! ## Statements with a keyword

The words between the parts leave no nodes. -/

theorem conditional_places (hg : g.Orderly input) : PlacesAll g.conditional input := by
  refine fun lo => (condition_places hg lo).bind fun condition mid hcondition => ?_
  exact (embedded_places hg mid).bind fun body hi hbody => .pure (hcondition.append hbody)

theorem ifStatement_places (hg : g.Orderly input) : PlacesAll g.ifStatement input := by
  refine fun lo => (conditional_places hg lo).bind fun found mid hfound => ?_
  refine .eat (fun _ => ?_) fun _ => .pure hfound
  refine (embedded_places hg (mid + 1)).bind fun body hi hbody => .pure ?_
  exact hfound.append (hbody.mono (Nat.le_succ mid) (Nat.le_refl hi))

theorem doStatement_places (hg : g.Orderly input) : PlacesAll g.doStatement input := by
  refine fun lo => (embedded_places hg lo).bind fun body mid hbody => ?_
  refine (expect_advances .whileKw).andThen fun found n hn => ?_
  -- with a condition or without, what follows is the same
  extract_lets rest
  have hrest : ∀ condition k, Placed input.words n k condition →
      Reads (rest condition) input k fun ts hi => Placed input.words lo hi ts := by
    intro condition k hcondition
    refine (expect_advances .semi).andThen fun _ hi hhi => .pure ?_
    exact hbody.append (hcondition.mono hn hhi)
  refine .ite (fun _ => ?_) fun _ => hrest [] n (.nil (Nat.le_refl n))
  exact (condition_places hg n).bind hrest

/-- Variables or expressions, a condition, and expressions again, each behind the one before. -/
theorem forStatement_places (hg : g.Orderly input) : PlacesAll g.forStatement input := by
  refine fun lo => (expect_advances .lparen).andThen fun found n hn =>
    .ite (fun _ => .isAt ?_) fun _ => ?_
  · extract_lets rest
    have hrest : ∀ start k, Placed input.words n k start →
        Reads (rest start) input k fun ts hi => Placed input.words lo hi ts := by
      intro start k hstart
      refine (expect_advances .semi).andThen fun _ k₁ hk₁ => ?_
      refine (expressionStatement_places hg k₁).bind fun test k₂ htest => ?_
      refine (hg.expression false .statement k₂).bind fun next k₃ hnext => ?_
      refine (expect_advances .rparen).andThen fun _ k₄ hk₄ => ?_
      refine (embedded_places hg k₄).bind fun body hi hbody => .pure ?_
      have hstart := hstart.mono hn hk₁
      have hnext := hnext.mono (Nat.le_refl k₂) hk₄
      exact ((hstart.append htest).append hnext).append hbody
    refine .ite (fun _ => hrest [] n (.nil (Nat.le_refl n))) fun _ => ?_
    exact (variablesOrExpression_places hg n).bind hrest
  · refine (embedded_places hg n).bind fun body hi hbody => .pure ?_
    exact hbody.mono hn (Nat.le_refl hi)

theorem fixedStatement_places (hg : g.Orderly input) : PlacesAll g.fixedStatement input := by
  refine fun lo => (expect_advances .lparen).andThen fun found n hn => ?_
  extract_lets rest
  have hrest : ∀ found k, Placed input.words n k found →
      Reads (rest found) input k fun ts hi => Placed input.words lo hi ts := by
    intro found k hfound
    refine (embedded_places hg k).bind fun body hi hbody => .pure ?_
    exact (hfound.append hbody).mono hn (Nat.le_refl hi)
  refine .ite (fun _ => ?_) fun _ => hrest [] n (.nil (Nat.le_refl n))
  exact (resources_places hg n).bind hrest

theorem usingStatement_places (hg : g.Orderly input) (first : Nat) :
    PlacesFrom first (g.usingStatement first) input := by
  intro lo hlo
  refine .bump (.eat (fun _ => ?_) fun _ => ?_)
  · refine (resources_places hg _).bind fun found mid hfound => ?_
    refine (embedded_places hg mid).bind fun body hi hbody => .node (.plain ?_ rfl)
    exact (hfound.append hbody).mono (by omega) (Nat.le_refl hi)
  · refine (tryVariables_places hg _).bind fun found mid hfound => ?_
    cases found with
    | some declared =>
        refine (expect_advances .semi).andThen fun _ hi hhi => .node (.plain ?_ rfl)
        exact hfound.mono (by omega) hhi
    | none =>
        refine (expressionStatement_places hg mid).bind fun ts hi hts => .node (.plain ?_ rfl)
        have := hfound.le
        exact hts.mono (by omega) (Nat.le_refl hi)

theorem catchClauses_places (hg : g.Orderly input) : PlacesAll g.catchClauses input := by
  intro lo
  refine (collect_places lo (.nil (Nat.le_refl lo)) ?_).bind fun found hi hfound => .pure hfound
  intro found mid hfound
  refine .eat (fun _ => .isAt ?_) fun _ => .pure hfound
  extract_lets block filters
  have hblock : ∀ filter k, Placed input.words mid k filter →
      Reads (block filter) input k fun r hi => Placed input.words lo hi r.found.toList := by
    intro filter k hfilter
    refine (expectBlock_places hg k).bind fun ts hi hts => .pure (more_places ?_ hts)
    rw [Array.toList_appendList]
    exact hfound.append hfilter
  have hfilters : ∀ u k, mid + 1 ≤ k →
      Reads (filters u) input k fun r hi => Placed input.words lo hi r.found.toList := by
    intro u k hk
    refine .isAtContextual (.ite (fun _ => .bump ?_) fun _ => hblock [] k (.nil (by omega)))
    refine (condition_places hg (k + 1)).bind fun filter hi hfilter => hblock filter hi ?_
    exact hfilter.mono (by omega) (Nat.le_refl hi)
  exact .ite (fun _ => skipGroup_advances.andThen hfilters) fun _ => hfilters () _ (Nat.le_refl _)

theorem tryStatement_places (hg : g.Orderly input) : PlacesAll g.tryStatement input := by
  refine fun lo => (expectBlock_places hg lo).bind fun body n hbody => ?_
  refine (catchClauses_places hg n).bind fun handlers m hhandlers => ?_
  have hfound := hbody.append hhandlers
  refine .eat (fun _ => ?_) fun _ => .pure (hfound.append (.nil (Nat.le_refl m)))
  refine (expectBlock_places hg (m + 1)).bind fun last hi hlast => .pure ?_
  exact hfound.append (hlast.mono (Nat.le_succ m) (Nat.le_refl hi))

theorem caseLabel_advances : Advances caseLabel input := by
  refine fun lo => (skipGroupsWhile_advances _).andThen fun _ mid hmid => ?_
  exact (expect_advances .colon).andThen fun _ hi hhi => .pure (Nat.le_trans hmid hhi)

theorem switchBlock_places (hg : g.Orderly input) : PlacesAll g.switchBlock input := by
  refine fun lo => .isAt (.ite (fun _ => ?_) fun _ => .expected (.pure (.nil (Nat.le_refl lo))))
  refine deeper_places (braced_places fun k lo => ?_) lo
  refine .ite (fun _ => .bump ?_) fun _ => .look ?_
  · exact caseLabel_advances.andThen fun _ hi hhi => .pure (.nil (Nat.le_of_succ_le hhi))
  · refine .ite (fun _ => .bump (.bump (.pure (.nil (by omega))))) fun _ => ?_
    exact orUnexpected_places hg.statement lo

/-! ## Declarations and expressions

What looks like a type may turn out to start an expression. Then the parser goes back, and the
expression lies from the start of the statement on. -/

theorem localModifiers_advances : Advances localModifiers input := by
  refine Advances.loop fun found lo => .look ?_
  split
  · exact .bump (.pure (Nat.le_succ lo))
  · exact .pure (Nat.le_refl lo)

theorem skipRef_advances : Advances skipRef input := by
  refine fun lo => (eat_advances .refKw).andThen fun found n hn => ?_
  extract_lets rest
  have hrest : ∀ u k, n ≤ k → Reads (rest u) input k fun _ hi => lo ≤ hi := by
    intro u k hk
    refine .look (.ite (fun _ => .bump ?_) fun _ => .pure (Nat.le_trans hn hk))
    exact (eat_advances .refKw).andThen fun _ hi hhi => .pure (by omega)
  refine .ite (fun _ => ?_) fun _ => hrest () n (Nat.le_refl n)
  exact (eat_advances .readonlyKw).andThen fun _ k hk => hrest () k hk

/-- A local function lies from before its name on, which is ahead. -/
theorem localFunction_places (hg : g.Orderly input) (first : Nat) (m : Modifiers) :
    PlacesFrom first (g.localFunction first m) input := by
  refine fun lo hlo => name_reads.bind fun name n hname => ?_
  refine typeParameters_advances.andThen fun _ n₁ hn₁ => ?_
  refine (expectParameters_places hg n₁).bind fun parameters n₂ hparameters => ?_
  refine constraints_advances.andThen fun _ n₃ hn₃ => ?_
  refine (memberBody_places hg n₃).bind fun body hi hbody => .node ?_
  have hbelow := (hparameters.mono (Nat.le_refl n₁) hn₃).append hbody
  exact .named (hname.mono hlo hn₁) hbelow rfl

/-- The expression lies behind the start of the statement, wherever it is read from. -/
theorem bareExpression_places (hg : g.Orderly input) {first start : Nat} (hstart : first ≤ start) :
    Reads (g.bareExpression first start) input lo fun t hi => Placed input.words first hi [t] := by
  -- wherever the attempt at a declaration led, reading starts again behind `first`
  refine .moveTo ((hg.expression false .statement start).bind fun found mid hfound => .here ?_)
  have hnode : ∀ u : Unit, ∀ hi, mid ≤ hi → Reads (plain .statement first found) input hi
      fun t hi => Placed input.words first hi [t] :=
    fun _ hi hhi => .node (.plain (hfound.mono hstart hhi) rfl)
  refine .ite (fun _ => ?_) fun _ => ?_
  · exact unexpected_advances.andThen hnode
  · exact (expect_advances .semi).andThen fun _ hi hhi => hnode () hi hhi

theorem variableOrExpression_places (hg : g.Orderly input) (first : Nat) :
    PlacesFrom first (g.variableOrExpression first) input := by
  refine fun lo hlo => .here (localModifiers_advances.andThen fun m n hn => ?_)
  refine skipRef_advances.andThen fun _ start hstart => .here (.lookWithin ?_)
  split
  · rename_i past hpast
    have hlt := input.words.lt_of_typeBeforeName? hpast
    refine .look (.ite (fun _ => .moveTo ?_) fun _ => .look ?_)
    · refine name_reads.bind fun name k hname => ?_
      refine (declarators_places hg (Nat.le_of_lt hlt) hname).bind fun declared mid hdeclared => ?_
      refine (expect_advances .semi).andThen fun _ hi hhi => .node (.plain ?_ rfl)
      exact hdeclared.mono (by omega) hhi
    · refine .ite (fun _ => .moveTo ?_) fun _ => bareExpression_places hg hlo
      exact localFunction_places hg first m past (by omega)
  · exact bareExpression_places hg hlo

theorem declarationOrExpression_places (hg : g.Orderly input) (first : Nat) :
    PlacesFrom first (g.declarationOrExpression first) input := by
  refine fun lo hlo => .look (.ite (fun _ => .bump (.bump (.isAt ?_))) fun _ => .look ?_)
  · refine .ite (fun _ => .node (.plain (.nil (by omega)) rfl)) fun _ => ?_
    refine (embedded_places hg _).bind fun body hi hbody => .node (.plain ?_ rfl)
    exact hbody.mono (by omega) (Nat.le_refl hi)
  · refine .ite (fun _ => .bump (.bump ?_)) fun _ => .look ?_
    · refine (expressionStatement_places hg _).bind fun ts hi hts => .node (.plain ?_ rfl)
      exact hts.mono (by omega) (Nat.le_refl hi)
    · refine .ite (fun _ => .bump (usingStatement_places hg first _ (by omega))) fun _ => .look ?_
      refine .ite (fun _ => .bump ((hg.statement _).mono fun t hi ht => ?_)) fun _ => ?_
      · exact ht.mono (by omega) (Nat.le_refl hi)
      · exact variableOrExpression_places hg first lo hlo

/-! ## Statements

By the word ahead. -/

theorem afterKeyword_places {rest : Parser (List Node)} (h : PlacesAll rest input) (first : Nat) :
    PlacesFrom first (afterKeyword first rest) input := by
  refine fun lo hlo => .bump ((h (lo + 1)).bind fun ts hi hts => .node (.plain ?_ rfl))
  exact hts.mono (by omega) (Nat.le_refl hi)

theorem otherStatement_places (hg : g.Orderly input) (first : Nat) :
    PlacesFrom first (g.otherStatement first) input := by
  refine fun lo hlo => .look (.ite (fun _ => ?_) fun _ =>
    declarationOrExpression_places hg first lo hlo)
  refine (hg.member lo).bind fun member hi hmember => ?_
  cases member with
  | some member => exact .pure (hmember.mono hlo (Nat.le_refl hi))
  | none => exact .node (.plain (.nil (Nat.le_trans hlo hmember.le)) rfl)

/-- Whatever form a statement has, it lies over its words. -/
theorem statementBody_places (hg : g.Orderly input) : Places g.statementBody input := by
  intro lo
  -- most forms are a keyword and what follows it
  have hkeyword : ∀ {rest : Parser (List Node)}, PlacesAll rest input →
      Reads (afterKeyword lo rest) input lo fun t hi => Placed input.words lo hi [t] :=
    fun h => afterKeyword_places h lo lo (Nat.le_refl lo)
  have hempty : Reads (expected .statement >>= fun _ => plain .statement lo []) input lo
      fun t hi => Placed input.words lo hi [t] :=
    .expected (.node (.plain (.nil (Nat.le_refl lo)) rfl))
  have hstray : Reads (unexpected >>= fun _ => plain .statement lo []) input lo
      fun t hi => Placed input.words lo hi [t] :=
    unexpected_advances.andThen fun _ hi hhi => .node (.plain (.nil hhi) rfl)
  have hjump : PlacesAll (expect .semi >>= fun _ => pure []) input :=
    fun lo => (expect_advances .semi).andThen fun _ hi hhi => .pure (.nil hhi)
  refine .here (.peek ?_)
  split
  · exact hempty
  · exact hempty
  · exact block_places hg lo
  · exact hkeyword fun lo => .pure (.nil (Nat.le_refl lo))
  · exact hkeyword (ifStatement_places hg)
  · exact hkeyword (conditional_places hg)
  · exact hkeyword (conditional_places hg)
  · exact hkeyword (conditional_places hg)
  · exact hkeyword (doStatement_places hg)
  · refine hkeyword fun lo => (condition_places hg lo).bind fun condition mid hcondition => ?_
    exact (switchBlock_places hg mid).bind fun ts hi hts => .pure (hcondition.append hts)
  · exact hkeyword (forStatement_places hg)
  · exact usingStatement_places hg lo lo (Nat.le_refl lo)
  · exact hkeyword (fixedStatement_places hg)
  · exact hkeyword (tryStatement_places hg)
  · exact hkeyword (expressionStatement_places hg)
  · exact hkeyword (expressionStatement_places hg)
  · exact hkeyword (expressionStatement_places hg)
  · exact hkeyword hjump
  · exact hkeyword hjump
  · refine .bump ((typedVariables_places hg (lo + 1)).bind fun t hi ht => .node (.plain ?_ rfl))
    exact ht.mono (Nat.le_succ lo) (Nat.le_refl hi)
  · exact hstray
  · exact hstray
  · exact hstray
  · exact hstray
  · refine (attributeLists_places lo).bind fun attributes mid hattributes => .look ?_
    refine .ite (fun _ => ?_) fun _ => .node
      (.plain (hattributes.append (.nil (Nat.le_refl mid))) rfl)
    exact (hg.statement mid).bind fun t hi ht => .node (.plain (hattributes.append ht) rfl)
  · refine .look (.ite (fun _ => hkeyword (block_places hg).one) fun _ => ?_)
    exact otherStatement_places hg lo lo (Nat.le_refl lo)

end SharpTokens.Grammar.Nonterminals
