import SharpTokens.Proofs.Grammar.Literals

/-!
# The grammar does not read literals

Every parser of the grammar is blind to the texts of literals if the nonterminals are, so every
unfolding of the grammar is, and words without the texts of their literals are read as the words
themselves (`parse_bare`).

No parser looks at a text but that of an identifier, a keyword or a mark. The proofs follow the
parsers and have no content beyond that.

The statement is one equation for each parser, between its runs on words with and without the texts
of literals. For the grammar as a whole it follows by induction on how often it is unfolded, since
every nonterminal is blind if the ones below are.
-/

namespace SharpTokens.Grammar

open Grammar.Parser

/-! ## Attributes, modifiers and types

Contextual modifiers are told by the texts of identifiers. -/

theorem attributeLists_blind : Blind attributeLists := by
  refine Blind.ret (.loop (fun found => (isAt_blind _).bind fun _ => .ite ?_ (.pure _)) _)
  exact Blind.here.bind fun _ => skipGroup_blind.bind fun _ => (plain_blind _ _ _).ret

theorem modifierStep_blind (found : Modifiers) : Blind (modifierStep found) := by
  refine peek_blind.bind fun k => ?_
  split
  · exact Blind.bump.ret
  · exact Blind.bump.ret
  · exact Blind.bump.ret
  · exact Blind.bind (.look Words.isContextualModifier_bare) fun _ => .ite Blind.bump.ret (.pure _)
  · exact .pure _

theorem modifiers_blind : Blind modifiers := .loop modifierStep_blind _

theorem skipType_blind : Blind skipType := by
  refine Blind.bind (.lookWithin Words.typeEnd?_bare) fun past? => ?_
  cases past? with
  | some past => exact (Blind.moveTo _).ret
  | none => exact .pure _

theorem expectType_blind : Blind expectType :=
  skipType_blind.bind fun _ => .ite (.pure _) (expected_blind _)

theorem typeParameterStep_blind (depth : Nat) : Blind (typeParameterStep depth) := by
  refine peek_blind.bind fun k => ?_
  split
  · exact .pure _
  · exact (expected_blind _).ret
  · exact (expected_blind _).ret
  · exact (expected_blind _).ret
  · exact (expected_blind _).ret
  · exact (expected_blind _).ret
  · exact Blind.bump.bind fun _ => .ite (.pure _) (.pure _)

theorem typeParameters_blind : Blind typeParameters :=
  (isAt_blind _).bind fun _ => .ite (Blind.ret (.loop typeParameterStep_blind _)) (.pure _)

theorem constraints_blind : Blind constraints := by
  refine .loop (fun _ => (isAtContextual_blind _).bind fun _ => .ite ?_ (.pure _)) _
  refine Blind.bump.bind fun _ => (skipWhile_blind fun ws i k => ?_).ret
  rw [Words.isContextual_bare]

theorem typeHeader_blind : Blind typeHeader := skipGroupsWhile_blind fun _ _ _ => rfl

/-! ## Expressions

Strings and numbers are passed over like any other word. -/

/-- The parsers that everything else is built on are blind. -/
structure Nonterminals.AllBlind (g : Nonterminals) : Prop where
  expression : ∀ toComma scope, Blind (g.expression toComma scope)
  namespaceDeclaration : Blind g.namespaceDeclaration
  member : Blind g.member
  statement : Blind g.statement

namespace Nonterminals

variable {g : Nonterminals}

theorem block_blind (hg : g.AllBlind) : Blind g.block :=
  deeperNode_blind (Blind.here.bind fun _ =>
    (braced_blind fun _ => orUnexpected_blind hg.statement).bind fun _ => plain_blind _ _ _)

theorem expectBlock_blind (hg : g.AllBlind) : Blind g.expectBlock :=
  (isAt_blind _).bind fun _ => .ite (block_blind hg).ret (expected_blind _).ret

theorem isParameterModifier_blind : BlindTo isParameterModifier := by
  intro ws i k
  rw [isParameterModifier, isParameterModifier, Words.isScoped_bare]

theorem parameterName_blind (first : Nat) : Blind (parameterName first) := by
  refine skipType_blind.bind fun _ =>
    .ite name_blind (Blind.here.bind fun _ => .ite ?_ missingName_blind)
  exact (expected_blind _).bind fun _ => missingName_blind

theorem parameter_blind (hg : g.AllBlind) (style : ParameterStyle) : Blind (g.parameter style) := by
  refine Blind.here.bind fun first => attributeLists_blind.bind fun attributes => ?_
  refine (skipWhile_blind isParameterModifier_blind).bind fun _ => ?_
  refine Blind.bind (.look fun ws i => by rw [Words.is_bare, Words.isAny_bare]) fun untyped => ?_
  refine .join name_blind (parameterName_blind _) fun name => (eat_blind _).bind fun _ => ?_
  exact .join (hg.expression _ _) (.pure _) fun value => node_blind _ _ _ _ _

theorem parameterStep_blind (hg : g.AllBlind) (style : ParameterStyle) (found : Array Node) :
    Blind (g.parameterStep style found) := by
  refine peek_blind.bind fun k => ?_
  cases k with
  | none => exact (expected_blind _).ret
  | some k =>
      refine .ite Blind.bump.ret (.ite (expected_blind _).ret (.ite Blind.bump.ret ?_))
      exact (orUnexpected_blind (parameter_blind hg style)).ret

theorem parameterList_blind (hg : g.AllBlind) (style : ParameterStyle) :
    Blind (g.parameterList style) := by
  refine Blind.here.bind fun first => Blind.bump.bind fun _ => ?_
  exact Blind.bind (.loop (parameterStep_blind hg style) _) fun found => plain_blind _ _ _

theorem expectParameters_blind (hg : g.AllBlind) : Blind g.expectParameters :=
  (isAt_blind _).bind fun _ => .ite (parameterList_blind hg .method).ret (expected_blind _).ret

theorem declarator_blind (hg : g.AllBlind) (name : Name) : Blind (g.declarator name) := by
  refine (isAt_blind _).bind fun _ => .first skipGroup_blind fun _ => (eat_blind _).bind fun _ => ?_
  exact .join (hg.expression _ _) (.pure _) fun value => node_blind _ _ _ _ _

theorem declarators_blind (hg : g.AllBlind) (first : Nat) (name : Name) :
    Blind (g.declarators first name) := by
  refine (declarator_blind hg name).bind fun declared => Blind.bind (.loop (fun found => ?_) _)
    fun found => ?_
  · refine (eat_blind _).bind fun _ => .ite (name_blind.bind fun name => ?_) (.pure _)
    exact (declarator_blind hg name).ret
  · exact plain_blind _ _ _

theorem group_blind (hg : g.AllBlind) (scope : Scope) : Blind (g.group scope) := by
  refine peek_blind.bind fun k => ?_
  extract_lets close?
  cases close? with
  | none => exact .pure _
  | some close =>
      refine deeper_blind (Blind.bump.bind fun _ => (hg.expression _ _).bind fun found => ?_)
      exact (expect_blind _).ret

theorem condition_blind (hg : g.AllBlind) : Blind g.condition :=
  (isAt_blind _).bind fun _ => .ite (group_blind hg .group) (expected_blind _).ret

theorem lambda_blind (hg : g.AllBlind) : Blind g.lambda := by
  refine deeperNode_blind (Blind.here.bind fun first => ?_)
  refine (skipWhile_blind fun ws i k => by rw [Words.isContextual_bare, Words.is_bare]).bind fun _
    => ?_
  have hrest : ∀ parameters, Blind (do
      let _ ← expect .arrow
      let body ← if ← isAt .lbrace then pure [← g.block] else g.expression true .statement
      plain .lambdaExpression first (parameters :: body)) := by
    refine fun parameters => (expect_blind _).bind fun _ => (isAt_blind _).bind fun _ => .ite ?_ ?_
    · exact (block_blind hg).bind fun t => (Blind.pure [t]).bind fun body => plain_blind _ _ _
    · exact (hg.expression _ _).bind fun body => plain_blind _ _ _
  refine (isAt_blind _).bind fun _ => .ite ((parameterList_blind hg .lambda).bind hrest) ?_
  refine Blind.here.bind fun start => name_blind.bind fun name => ?_
  exact (node_blind _ _ _ _ _).bind hrest

theorem anonymousMethod_blind (hg : g.AllBlind) : Blind g.anonymousMethod := by
  refine Blind.here.bind fun first => Blind.bump.bind fun _ => (isAt_blind _).bind fun _ => ?_
  have hrest : ∀ parameters, Blind (do
      let body ← g.expectBlock
      plain .anonymousMethodExpression first (parameters ++ body)) :=
    fun parameters => (expectBlock_blind hg).bind fun body => plain_blind _ _ _
  exact .ite ((parameterList_blind hg .method).bind fun t => (Blind.pure [t]).bind hrest)
    ((Blind.pure []).bind hrest)

theorem expressionStep_blind (hg : g.AllBlind) (scope : Scope) (k : Kind) :
    Blind (g.expressionStep scope k) := by
  refine .ite (Blind.bind (.look Words.startsParameters_bare) fun _ => ?_)
    (.ite (group_blind hg _) (.ite ?_ ?_))
  · exact .ite (lambda_blind hg).ret (group_blind hg _)
  · exact Blind.bind (.look fun ws i => by rw [Words.is_bare]) fun _ => group_blind hg _
  · refine .ite (Blind.bind (.lookWithin Words.typeArgumentsInExpression?_bare) fun past? => ?_) ?_
    · cases past? with
      | some past => exact (Blind.moveTo past).ret
      | none => exact Blind.bump.ret
    · refine Blind.bind (.look fun ws i => ws.is_bare (i + 1) _) fun _ =>
        .ite (lambda_blind hg).ret ?_
      refine Blind.bind (.look Words.isLambdaModifier_bare) fun _ => .ite (lambda_blind hg).ret ?_
      refine Blind.bind (.look fun ws i => ws.isAny_bare (i + 1) _) fun _ => ?_
      exact .ite (anonymousMethod_blind hg).ret Blind.bump.ret

theorem expressionEnds_blind (toComma : Bool) (scope : Scope) (start : Nat) (k : Kind) :
    Blind (expressionEnds toComma scope start k) := by
  refine .ite (.pure _) (Blind.bind (.lookWithin ?_) fun _ => .ite (.pure _) (.pure _))
  exact fun ws limit i => ws.missesSemicolon_bare limit start i

theorem expressionBody_blind (hg : g.AllBlind) (toComma : Bool) (scope : Scope) :
    Blind (g.expressionBody toComma scope) := by
  refine Blind.here.bind fun start => Blind.ret (.loop (fun found => peek_blind.bind fun k => ?_) _)
  cases k with
  | none => exact .pure _
  | some k =>
      refine (expressionEnds_blind _ _ _ _).bind fun _ => .ite (.pure _) ?_
      exact (expressionStep_blind hg scope k).ret

theorem expressionStatement_blind (hg : g.AllBlind) : Blind g.expressionStatement :=
  (hg.expression _ _).bind fun _ => (expect_blind _).ret

theorem memberBody_blind (hg : g.AllBlind) : Blind g.memberBody := by
  refine peek_blind.bind fun k => ?_
  split
  · exact (block_blind hg).ret
  · exact Blind.bump.bind fun _ => expressionStatement_blind hg
  · exact Blind.bump.ret
  · exact (expected_blind _).ret

/-! ## Statements

A word such as `await` is an identifier, so its text may be looked at. -/

theorem embedded_blind (hg : g.AllBlind) : Blind g.embedded := deeperNode_blind hg.statement

theorem tryVariables_blind (hg : g.AllBlind) : Blind g.tryVariables := by
  refine Blind.bind (.lookWithin Words.typeBeforeVariable?_bare) fun past? => ?_
  cases past? with
  | none => exact .pure _
  | some past =>
      refine Blind.here.bind fun first => (Blind.moveTo past).bind fun _ => name_blind.bind
        fun name => ?_
      exact (declarators_blind hg first name).ret

theorem variablesOrExpression_blind (hg : g.AllBlind) : Blind g.variablesOrExpression := by
  refine (tryVariables_blind hg).bind fun declared? => ?_
  cases declared? with
  | some declared => exact .pure _
  | none => exact hg.expression _ _

theorem resources_blind (hg : g.AllBlind) : Blind g.resources :=
  (variablesOrExpression_blind hg).bind fun _ => (expect_blind _).ret

theorem typedVariables_blind (hg : g.AllBlind) : Blind g.typedVariables := by
  refine Blind.here.bind fun first => expectType_blind.bind fun _ => name_blind.bind fun name => ?_
  exact (declarators_blind hg first name).bind fun _ => (expect_blind _).ret

theorem conditional_blind (hg : g.AllBlind) : Blind g.conditional :=
  (condition_blind hg).bind fun _ => (embedded_blind hg).ret

theorem ifStatement_blind (hg : g.AllBlind) : Blind g.ifStatement :=
  (conditional_blind hg).bind fun _ => (eat_blind _).bind fun _ =>
    .ite (embedded_blind hg).ret (.pure _)

theorem doStatement_blind (hg : g.AllBlind) : Blind g.doStatement := by
  refine (embedded_blind hg).bind fun body => (expect_blind _).bind fun _ => ?_
  exact .join (condition_blind hg) (.pure _) fun condition => (expect_blind _).ret

theorem forStatement_blind (hg : g.AllBlind) : Blind g.forStatement := by
  refine (expect_blind _).bind fun _ => .ite ((isAt_blind _).bind fun _ => ?_)
    (embedded_blind hg).ret
  refine .join (.pure _) (variablesOrExpression_blind hg) fun start =>
    (expect_blind _).bind fun _ => ?_
  refine (expressionStatement_blind hg).bind fun test => (hg.expression _ _).bind fun next => ?_
  exact (expect_blind _).bind fun _ => (embedded_blind hg).ret

theorem fixedStatement_blind (hg : g.AllBlind) : Blind g.fixedStatement := by
  refine (expect_blind _).bind fun _ => .join (resources_blind hg) (.pure _) fun found => ?_
  exact (embedded_blind hg).ret

theorem usingStatement_blind (hg : g.AllBlind) (first : Nat) : Blind (g.usingStatement first) := by
  refine Blind.bump.bind fun _ => (eat_blind _).bind fun _ =>
    .ite ?_ ((tryVariables_blind hg).bind fun declared? => ?_)
  · refine (resources_blind hg).bind fun found => (embedded_blind hg).bind fun body => ?_
    exact plain_blind _ _ _
  · cases declared? with
    | some declared => exact (expect_blind _).bind fun _ => plain_blind _ _ _
    | none => exact (expressionStatement_blind hg).bind fun _ => plain_blind _ _ _

theorem catchClauses_blind (hg : g.AllBlind) : Blind g.catchClauses := by
  refine Blind.ret (.loop (fun found => (eat_blind _).bind fun _ => .ite ?_ (.pure _)) _)
  refine (isAt_blind _).bind fun _ => .first skipGroup_blind fun _ =>
    (isAtContextual_blind _).bind fun _ => ?_
  have hrest : ∀ filter : List Node, Blind
      (do return Step.more (found ++ filter ++ (← g.expectBlock))) :=
    fun filter => (expectBlock_blind hg).ret
  exact .ite (Blind.bump.bind fun _ => (condition_blind hg).bind hrest) ((Blind.pure []).bind hrest)

theorem tryStatement_blind (hg : g.AllBlind) : Blind g.tryStatement := by
  refine (expectBlock_blind hg).bind fun body => (catchClauses_blind hg).bind fun handlers => ?_
  exact (eat_blind _).bind fun _ => .join (expectBlock_blind hg) (.pure _) fun last => .pure _

theorem caseLabel_blind : Blind caseLabel :=
  (skipGroupsWhile_blind fun _ _ _ => rfl).bind fun _ => (expect_blind _).ret

theorem switchItem_blind (hg : g.AllBlind) (k : Kind) : Blind (g.switchItem k) := by
  refine .ite (Blind.bump.bind fun _ => caseLabel_blind.ret) ?_
  refine Blind.bind (.look fun ws i => ws.is_bare (i + 1) _) fun _ => ?_
  exact .ite (Blind.bump.bind fun _ => Blind.bump.ret) (orUnexpected_blind hg.statement)

theorem switchBlock_blind (hg : g.AllBlind) : Blind g.switchBlock :=
  (isAt_blind _).bind fun _ => .ite (deeper_blind (braced_blind (switchItem_blind hg)))
    (expected_blind _).ret

theorem isLocalModifier_blind : BlindTo isLocalModifier := by
  intro ws i k
  rw [isLocalModifier, isLocalModifier, Words.isContextual_bare, Words.isAny_bare]

theorem localModifiers_blind : Blind localModifiers := by
  refine .loop (fun found => Blind.bind (.look (filter_bare isLocalModifier_blind)) fun k? => ?_) _
  cases k? with
  | some k => exact Blind.bump.ret
  | none => exact .pure _

theorem skipRef_blind : Blind skipRef := by
  refine (eat_blind _).bind fun _ => ?_
  have hscoped : ∀ u : Unit, Blind (do if ← look Words.isScoped then bump; let _ ← eat .refKw) := by
    refine fun _ => Blind.bind (.look Words.isScoped_bare) fun _ => .ite ?_ (.pure _)
    exact Blind.bump.bind fun _ => (eat_blind _).ret
  exact .ite ((eat_blind _).bind fun _ => hscoped ()) (hscoped ())

theorem localFunction_blind (hg : g.AllBlind) (first : Nat) (modifiers : Modifiers) :
    Blind (g.localFunction first modifiers) := by
  refine name_blind.bind fun name => typeParameters_blind.bind fun _ => ?_
  refine (expectParameters_blind hg).bind fun parameters => constraints_blind.bind fun _ => ?_
  exact (memberBody_blind hg).bind fun body => node_blind _ _ _ _ _

theorem bareExpression_blind (hg : g.AllBlind) (first start : Nat) :
    Blind (g.bareExpression first start) := by
  refine (Blind.moveTo start).bind fun _ => (hg.expression _ _).bind fun found =>
    Blind.here.bind fun _ => ?_
  have hrest : ∀ u : Unit, Blind (plain .statement first found) := fun _ => plain_blind _ _ _
  exact .ite (unexpected_blind.bind hrest) ((expect_blind _).bind fun _ => hrest ())

theorem variableOrExpression_blind (hg : g.AllBlind) (first : Nat) :
    Blind (g.variableOrExpression first) := by
  refine Blind.here.bind fun start => localModifiers_blind.bind fun modifiers =>
    skipRef_blind.bind fun _ => ?_
  refine Blind.here.bind fun typeStart => Blind.bind (.lookWithin Words.typeBeforeName?_bare)
    fun past? => ?_
  cases past? with
  | none => exact bareExpression_blind hg first start
  | some past =>
      refine Blind.bind (.look fun ws _ => ws.endsDeclarator_bare _) fun _ => .ite ?_ ?_
      · refine (Blind.moveTo past).bind fun _ => name_blind.bind fun name => ?_
        refine (declarators_blind hg typeStart name).bind fun declared =>
          (expect_blind _).bind fun _ => ?_
        exact plain_blind _ _ _
      · refine Blind.bind (.look fun ws _ => ws.isAny_bare _ _) fun _ =>
          .ite ?_ (bareExpression_blind hg first start)
        exact (Blind.moveTo past).bind fun _ => localFunction_blind hg first modifiers

theorem declarationOrExpression_blind (hg : g.AllBlind) (first : Nat) :
    Blind (g.declarationOrExpression first) := by
  refine Blind.bind (.look fun ws i => by rw [Words.is_bare, Words.is_bare]) fun _ => .ite ?_ ?_
  · refine Blind.bump.bind fun _ => Blind.bump.bind fun _ => (isAt_blind _).bind fun _ => ?_
    have hrest : ∀ labelled, Blind (plain .statement first labelled) := fun _ => plain_blind _ _ _
    exact .ite ((Blind.pure []).bind hrest) ((embedded_blind hg).bind fun t =>
      (Blind.pure [t]).bind hrest)
  · refine Blind.bind (.look fun ws i => by rw [Words.isContextual_bare, Words.isAny_bare]) fun _
      => .ite ?_ ?_
    · refine Blind.bump.bind fun _ => Blind.bump.bind fun _ =>
        (expressionStatement_blind hg).bind fun _ => ?_
      exact plain_blind _ _ _
    · refine Blind.bind (.look fun ws i => by rw [Words.isContextual_bare, Words.is_bare]) fun _
        => .ite ?_ ?_
      · exact Blind.bump.bind fun _ => usingStatement_blind hg first
      · refine Blind.bind (.look fun ws i => by rw [Words.isContextual_bare, Words.is_bare]) fun _
          => .ite ?_ ?_
        · exact Blind.bump.bind fun _ => hg.statement
        · exact variableOrExpression_blind hg first

theorem afterKeyword_blind {rest : Parser (List Node)} (hrest : Blind rest) (first : Nat) :
    Blind (afterKeyword first rest) :=
  Blind.bump.bind fun _ => hrest.bind fun _ => plain_blind _ _ _

theorem otherStatement_blind (hg : g.AllBlind) (first : Nat) : Blind (g.otherStatement first) := by
  refine Blind.bind (.look Words.startsMember_bare) fun _ =>
    .ite (hg.member.bind fun member? => ?_) ?_
  · cases member? with
    | some member => exact .pure _
    | none => exact plain_blind _ _ _
  · exact declarationOrExpression_blind hg first

theorem statementBody_blind (hg : g.AllBlind) : Blind g.statementBody := by
  refine Blind.here.bind fun first => peek_blind.bind fun k => ?_
  have hnothing := (expected_blind .statement).bind fun _ => plain_blind .statement first []
  have hcondition := afterKeyword_blind (conditional_blind hg) first
  have hexpression := afterKeyword_blind (expressionStatement_blind hg) first
  have hbreak :=
    afterKeyword_blind ((expect_blind .semi).ret (f := fun _ => ([] : List Node))) first
  have hstray := unexpected_blind.bind fun _ => plain_blind .statement first []
  split
  · exact hnothing
  · exact hnothing
  · exact block_blind hg
  · exact afterKeyword_blind (.pure _) first
  · exact afterKeyword_blind (ifStatement_blind hg) first
  · exact hcondition
  · exact hcondition
  · exact hcondition
  · exact afterKeyword_blind (doStatement_blind hg) first
  · exact afterKeyword_blind ((condition_blind hg).bind fun _ => (switchBlock_blind hg).ret) first
  · exact afterKeyword_blind (forStatement_blind hg) first
  · exact usingStatement_blind hg first
  · exact afterKeyword_blind (fixedStatement_blind hg) first
  · exact afterKeyword_blind (tryStatement_blind hg) first
  · exact hexpression
  · exact hexpression
  · exact hexpression
  · exact hbreak
  · exact hbreak
  · exact Blind.bump.bind fun _ => (typedVariables_blind hg).bind fun _ => plain_blind _ _ _
  · exact hstray
  · exact hstray
  · exact hstray
  · exact hstray
  · refine attributeLists_blind.bind fun attributes => ?_
    refine Blind.bind (.look fun ws i => by rw [Words.kind?_bare]) fun goesOn => ?_
    have hrest : ∀ rest, Blind (plain .statement first (attributes ++ rest)) :=
      fun _ => plain_blind _ _ _
    exact .ite (hg.statement.bind fun t => (Blind.pure [t]).bind hrest) ((Blind.pure []).bind hrest)
  · refine Blind.bind (.look fun ws i => ws.is_bare (i + 1) _) fun _ => ?_
    exact .ite (afterKeyword_blind (block_blind hg).ret first) (otherStatement_blind hg first)

/-! ## Members

Names are identifiers, and so are the words that introduce accessors. -/

theorem recover_blind : Blind recover := by
  refine peek_blind.bind fun k => ?_
  cases k with
  | none => exact .pure _
  | some k =>
      refine (Blind.fault _).bind fun _ => skipGroup_blind.bind fun _ => ?_
      refine (skipGroupsWhile_blind fun ws i k => ?_).bind fun _ => (eat_blind _).ret
      rw [restartsMember, restartsMember, Words.is_bare]

theorem memberOrRecover_blind {p : Parser (Option Node)} (hp : Blind p) :
    Blind (memberOrRecover p) := by
  refine Blind.here.bind fun before => hp.bind fun found => Blind.here.bind fun _ => ?_
  exact .first recover_blind fun _ => .pure _

theorem accessorBody_blind (hg : g.AllBlind) : Blind g.accessorBody := by
  refine peek_blind.bind fun k => ?_
  split
  · exact Blind.bump.ret
  · exact (block_blind hg).ret
  · exact Blind.bump.bind fun _ => expressionStatement_blind hg
  · exact (expected_blind _).ret

theorem accessorItem_blind (hg : g.AllBlind) (k : Kind) : Blind (g.accessorItem k) := by
  refine .ite attributeLists_blind (.ite Blind.bump.ret (.ite ?_ ?_))
  · exact Blind.bump.bind fun _ => accessorBody_blind hg
  · exact (Blind.fault _).bind fun _ => skipGroup_blind.ret

theorem accessorList_blind (hg : g.AllBlind) : Blind g.accessorList :=
  deeper_blind (braced_blind (accessorItem_blind hg))

theorem propertyBody_blind (hg : g.AllBlind) : Blind g.propertyBody := by
  refine peek_blind.bind fun k => ?_
  have hrest : ∀ body, Blind (do
      let value ← if ← eat .eq then g.expressionStatement else pure []
      return body ++ value) :=
    fun body => (eat_blind _).bind fun _ => .join (expressionStatement_blind hg) (.pure _)
      fun _ => .pure _
  split
  · exact (accessorList_blind hg).bind hrest
  · exact Blind.bump.bind fun _ => (expressionStatement_blind hg).bind hrest
  · exact (expected_blind _).bind fun _ => (Blind.pure []).bind hrest

theorem typeItem_blind (hg : g.AllBlind) (k : Kind) : Blind (g.typeItem k) :=
  .ite Blind.bump.ret (memberOrRecover_blind hg.member)

theorem typeDeclaration_blind (hg : g.AllBlind) (kind : NodeKind) (h : Head) :
    Blind (g.typeDeclaration kind h) := by
  refine Blind.bump.bind fun _ => ?_
  extract_lets rest
  have hrest : ∀ u, Blind (rest u) := by
    refine fun _ => name_blind.bind fun name => typeParameters_blind.bind fun _ =>
      (isAt_blind _).bind fun _ => ?_
    extract_lets body
    have hbody : ∀ parameters, Blind (body parameters) := by
      refine fun parameters => typeHeader_blind.bind fun _ => peek_blind.bind fun k => ?_
      have hfinish : ∀ members, Blind (h.named kind name (parameters ++ members)) :=
        fun _ => node_blind _ _ _ _ _
      split
      · refine (deeper_blind (braced_blind (typeItem_blind hg))).bind fun members =>
          (eat_blind _).bind fun _ => ?_
        exact (Blind.pure members).bind hfinish
      · exact Blind.bump.bind fun _ => (Blind.pure []).bind hfinish
      · exact (expected_blind _).bind fun _ => (Blind.pure []).bind hfinish
    refine .ite ((parameterList_blind hg .method).bind fun t => (Blind.pure [t]).bind hbody) ?_
    exact (Blind.pure []).bind hbody
  refine .ite ((eat_blind _).bind fun _ => .ite ?_ ?_) (hrest ())
  · exact hrest ()
  · exact (eat_blind _).bind fun _ => hrest ()

theorem enumMember_blind (hg : g.AllBlind) : Blind g.enumMember := by
  refine Blind.here.bind fun first => attributeLists_blind.bind fun attributes => name_blind.bind
    fun name => ?_
  exact (eat_blind _).bind fun _ => .join (hg.expression _ _) (.pure _) fun _ =>
    node_blind _ _ _ _ _

theorem enumItem_blind (hg : g.AllBlind) (k : Kind) : Blind (g.enumItem k) :=
  .ite Blind.bump.ret (.ite (enumMember_blind hg).ret unexpected_blind.ret)

theorem enumDeclaration_blind (hg : g.AllBlind) (h : Head) : Blind (g.enumDeclaration h) := by
  refine Blind.bump.bind fun _ => name_blind.bind fun name => typeHeader_blind.bind fun _ => ?_
  have hrest : ∀ body, Blind (h.named .enumDeclaration name body) := fun _ => node_blind _ _ _ _ _
  refine (isAt_blind _).bind fun _ =>
    .ite ?_ ((expected_blind _).bind fun _ => (Blind.pure []).bind hrest)
  refine (deeper_blind (braced_blind (enumItem_blind hg))).bind fun members =>
    (eat_blind _).bind fun _ => ?_
  exact (Blind.pure members).bind hrest

theorem delegateDeclaration_blind (hg : g.AllBlind) (h : Head) :
    Blind (g.delegateDeclaration h) := by
  refine Blind.bump.bind fun _ => expectType_blind.bind fun _ => name_blind.bind fun name => ?_
  refine typeParameters_blind.bind fun _ => (expectParameters_blind hg).bind fun parameters => ?_
  exact constraints_blind.bind fun _ => (expect_blind _).bind fun _ => node_blind _ _ _ _ _

theorem qualifierStep_blind (found : MemberName) : Blind (qualifierStep found) := by
  refine Blind.bind (.lookWithin fun ws limit i => ?_) fun past? => ?_
  · rw [Words.is_bare, Words.typeArgumentsEnd?_bare]
    simp only [Words.is_bare]
  · cases past? with
    | none => exact .pure _
    | some past =>
        refine (Blind.moveTo past).bind fun _ => Blind.bind (.look fun ws i => ?_) fun k => ?_
        · rw [Words.is_bare, Words.kind?_bare]
        · split
          · exact Blind.bump.bind fun _ => name_blind.ret
          · exact Blind.bump.ret
          · exact Blind.bump.ret
          · exact .pure _

theorem memberName_blind : Blind memberName := by
  refine (isAt_blind _).bind fun _ => .ite (name_blind.bind fun last => ?_) name_blind.ret
  exact .loop qualifierStep_blind _

theorem eventDeclaration_blind (hg : g.AllBlind) (h : Head) : Blind (g.eventDeclaration h) := by
  refine Blind.bump.bind fun _ => Blind.here.bind fun typeStart => expectType_blind.bind fun _ => ?_
  refine memberName_blind.bind fun found => ?_
  extract_lets rest
  have hrest : ∀ name, Blind (rest name) := by
    refine fun name => (isAt_blind _).bind fun _ => .ite ?_ ?_
    · exact (accessorList_blind hg).bind fun _ => node_blind _ _ _ _ _
    · refine (declarators_blind hg typeStart name).bind fun declared =>
        (expect_blind _).bind fun _ => ?_
      exact node_blind _ _ _ _ _
  have hmissing := (expected_blind (.kind .ident)).bind fun _ => missingName_blind.bind hrest
  cases found with
  | name n => exact (Blind.pure n).bind hrest
  | indexer => exact hmissing
  | operator => exact hmissing

/-- Parameters and a body, as several members have them. -/
theorem parametersAndBody_blind (hg : g.AllBlind) {f : List Node → List Node → Parser Node}
    (hf : ∀ parameters body, Blind (f parameters body)) :
    Blind (g.expectParameters >>= fun parameters => g.memberBody >>= f parameters) :=
  (expectParameters_blind hg).bind fun parameters => (memberBody_blind hg).bind fun body =>
    hf parameters body

theorem conversionOperator_blind (hg : g.AllBlind) (h : Head) : Blind (g.conversionOperator h) := by
  refine Blind.bump.bind fun _ => (expect_blind _).bind fun _ => (eat_blind _).bind fun _ => ?_
  exact expectType_blind.bind fun _ => parametersAndBody_blind hg fun _ _ => node_blind _ _ _ _ _

theorem destructor_blind (hg : g.AllBlind) (h : Head) : Blind (g.destructor h) := by
  refine Blind.bump.bind fun _ => name_blind.bind fun name => ?_
  exact parametersAndBody_blind hg fun _ _ => node_blind _ _ _ _ _

theorem constructor_blind (hg : g.AllBlind) (h : Head) : Blind (g.constructor h) := by
  refine Blind.bump.bind fun _ => (parameterList_blind hg .method).bind fun parameters => ?_
  have hrest : ∀ call, Blind (do
      let body ← g.memberBody
      h.unnamed .constructorDeclaration (parameters :: call ++ body)) :=
    fun call => (memberBody_blind hg).bind fun _ => node_blind _ _ _ _ _
  refine (eat_blind _).bind fun _ => .ite ?_ ((Blind.pure []).bind hrest)
  refine Blind.bind (.look fun ws i => ws.isAny_bare i _) fun _ => .first .bump fun _ => ?_
  exact (condition_blind hg).bind hrest

theorem method_blind (hg : g.AllBlind) (h : Head) (name : Name) : Blind (g.method h name) := by
  refine typeParameters_blind.bind fun _ => (expectParameters_blind hg).bind fun parameters => ?_
  exact constraints_blind.bind fun _ => (memberBody_blind hg).bind fun _ => node_blind _ _ _ _ _

theorem operator_blind (hg : g.AllBlind) (h : Head) : Blind (g.operator h) := by
  refine Blind.bump.bind fun _ => (eat_blind _).bind fun _ => ?_
  refine (skipWhile_blind fun _ _ _ => rfl).bind fun _ => ?_
  exact parametersAndBody_blind hg fun _ _ => node_blind _ _ _ _ _

theorem indexer_blind (hg : g.AllBlind) (h : Head) : Blind (g.indexer h) := by
  refine Blind.bump.bind fun _ => (isAt_blind _).bind fun _ => ?_
  have hrest : ∀ parameters, Blind (do
      let body ← g.propertyBody
      h.unnamed .indexerDeclaration (parameters ++ body)) :=
    fun parameters => (propertyBody_blind hg).bind fun _ => node_blind _ _ _ _ _
  refine .ite ((parameterList_blind hg .indexer).bind fun t => (Blind.pure [t]).bind hrest) ?_
  exact (expected_blind _).bind fun _ => (Blind.pure []).bind hrest

theorem namedMember_blind (hg : g.AllBlind) (h : Head) (typeStart : Nat) (name : Name) :
    Blind (g.namedMember h typeStart name) := by
  refine peek_blind.bind fun k => ?_
  have hproperty := (propertyBody_blind hg).bind fun body => node_blind .propertyDeclaration
    h.first (some name)
    h.modifiers (h.attributes ++ body)
  split
  · exact method_blind hg h name
  · exact method_blind hg h name
  · exact hproperty
  · exact hproperty
  · refine (declarators_blind hg typeStart name).bind fun declared =>
      (expect_blind _).bind fun _ => ?_
    exact node_blind _ _ _ _ _

theorem incomplete_blind (h : Head) : Blind h.incomplete := plain_blind _ _ _

theorem typedMember_blind (hg : g.AllBlind) (h : Head) : Blind (g.typedMember h) := by
  refine Blind.bind (.look fun ws i => by rw [Words.is_bare, Words.is_bare]) fun _ => ?_
  refine .ite (constructor_blind hg h).ret ((eat_blind _).bind fun _ => ?_)
  extract_lets rest
  have hrest : ∀ u, Blind (rest u) := by
    refine fun _ => Blind.here.bind fun typeStart => skipType_blind.bind fun _ =>
      .ite (peek_blind.bind fun k => ?_) ?_
    · split
      · exact (operator_blind hg h).ret
      · exact (indexer_blind hg h).ret
      · refine memberName_blind.bind fun found => ?_
        cases found with
        | name n => exact (namedMember_blind hg h typeStart n).ret
        | indexer => exact (indexer_blind hg h).ret
        | operator => exact (operator_blind hg h).ret
      · exact (expected_blind _).bind fun _ => (incomplete_blind h).ret
    · exact .ite (.pure _) ((expected_blind _).bind fun _ => (incomplete_blind h).ret)
  exact .ite ((eat_blind _).bind fun _ => hrest ()) (hrest ())

theorem memberDeclaration_blind (hg : g.AllBlind) : Blind g.memberDeclaration := by
  refine Blind.here.bind fun first => attributeLists_blind.bind fun attributes =>
    modifiers_blind.bind fun found => ?_
  extract_lets h
  refine peek_blind.bind fun k => ?_
  have htype := fun kind => (typeDeclaration_blind hg kind h).ret (f := some)
  split
  · exact htype .classDeclaration
  · exact htype .structDeclaration
  · exact htype .interfaceDeclaration
  · exact (enumDeclaration_blind hg h).ret
  · exact (delegateDeclaration_blind hg h).ret
  · exact hg.namespaceDeclaration.ret
  · exact (eventDeclaration_blind hg h).ret
  · refine Blind.bump.bind fun _ => (typedVariables_blind hg).bind fun declared => ?_
    exact (node_blind _ _ _ _ _).ret
  · exact (conversionOperator_blind hg h).ret
  · exact (conversionOperator_blind hg h).ret
  · exact (destructor_blind hg h).ret
  · refine Blind.bind (.look Words.startsRecord_bare) fun _ => ?_
    exact .ite (htype .recordDeclaration) (typedMember_blind hg h)
  · refine Blind.here.bind fun _ => .ite (.pure _) ?_
    exact (expected_blind _).bind fun _ => (incomplete_blind h).ret

end Nonterminals

/-! ## Whole texts

By induction on how often the grammar is unfolded. -/

theorem usingDirective_blind : Blind usingDirective := by
  refine Blind.here.bind fun first => (isAt_blind _).bind fun _ => .first .bump fun _ =>
    Blind.bump.bind fun _ => ?_
  exact (skipWhile_blind fun _ _ _ => rfl).bind fun _ => (expect_blind _).bind fun _ =>
    plain_blind _ _ _

theorem qualifiedName_blind : Blind qualifiedName := by
  refine Blind.here.bind fun first => name_blind.bind fun start => (node_blind _ _ _ _ _).bind
    fun part => ?_
  refine .loop (fun found => (eat_blind _).bind fun _ =>
    .ite (Blind.here.bind fun second => ?_) (.pure _)) _
  exact name_blind.bind fun part => (node_blind _ _ _ _ _).bind fun right => (plain_blind _ _ _).ret

namespace Nonterminals

variable {g : Nonterminals}

theorem namespaceMember_blind (hg : g.AllBlind) : Blind g.namespaceMember := by
  refine memberOrRecover_blind (peek_blind.bind fun k => ?_)
  split
  · exact hg.namespaceDeclaration.ret
  · exact Blind.bump.ret
  · exact Blind.bind (.look Words.startsUsing_bare) fun _ => .ite usingDirective_blind.ret hg.member

theorem restOfFile_blind (hg : g.AllBlind) : Blind g.restOfFile := by
  refine Blind.ret (.loop (fun found => peek_blind.bind fun k => ?_) _)
  split
  · exact .pure _
  · exact unexpected_blind.ret
  · exact (namespaceMember_blind hg).ret

theorem namespaceBody_blind (hg : g.AllBlind) : Blind g.namespaceBody := by
  refine Blind.here.bind fun first => Blind.bump.bind fun _ => qualifiedName_blind.bind
    fun name => ?_
  refine (eat_blind _).bind fun _ => .ite ?_ ((isAt_blind _).bind fun _ => ?_)
  · exact (restOfFile_blind hg).bind fun members => plain_blind _ _ _
  · have hrest : ∀ members, Blind (do
        let _ ← eat .semi
        plain .namespaceDeclaration first (name :: members)) :=
      fun members => (eat_blind _).bind fun _ => plain_blind _ _ _
    refine .ite ((deeper_blind (braced_blind fun _ => namespaceMember_blind hg)).bind hrest) ?_
    exact (expected_blind _).bind fun _ => (Blind.pure []).bind hrest

theorem topLevelItem_blind (hg : g.AllBlind) : Blind g.topLevelItem := by
  refine peek_blind.bind fun k => ?_
  split
  · exact .pure _
  · exact .pure _
  · refine Blind.bind (.lookWithin Words.usingIsStatement_bare) fun _ => .ite hg.statement.ret ?_
    refine Blind.bind (.look Words.startsUsing_bare) fun _ => .ite usingDirective_blind.ret ?_
    refine .ite hg.namespaceDeclaration.ret (Blind.bind (.look Words.startsMember_bare) fun _ => ?_)
    exact .ite hg.member hg.statement.ret

theorem compilationUnit_blind (hg : g.AllBlind) : Blind g.compilationUnit := by
  refine Blind.bind (.loop (fun found => peek_blind.bind fun k => ?_) _) fun found =>
    plain_blind _ _ _
  cases k with
  | none => exact .pure _
  | some k =>
      refine Blind.here.bind fun before => (topLevelItem_blind hg).bind fun item =>
        Blind.here.bind fun _ => ?_
      exact .first unexpected_blind fun _ => .pure _

/-- Every unfolding of the grammar is blind. -/
theorem unfolded_allBlind (n : Nat) : (unfolded n).AllBlind := by
  induction n with
  | zero =>
      have hskipped : Blind (do plain .skippedTokens (← here) []) :=
        Blind.here.bind fun _ => plain_blind _ _ _
      exact ⟨fun _ _ => .pure _, hskipped, .pure _, hskipped⟩
  | succ n ih =>
      exact ⟨expressionBody_blind ih, namespaceBody_blind ih, memberDeclaration_blind ih,
        statementBody_blind ih⟩

end Nonterminals

/-- **Words are read the same whatever their literals say.** -/
theorem parse_bare (words : Words) (limit : Nat) : parse words.bare limit = parse words limit := by
  have hblind := Nonterminals.compilationUnit_blind
    (Nonterminals.unfolded_allBlind (4 * (words.size + 1)))
  show Parsed.mk _ _ = Parsed.mk _ _
  rw [Words.size_bare, hblind words limit .initial]

end SharpTokens.Grammar
