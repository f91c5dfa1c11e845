import SharpTokens.Grammar.Unit
import SharpTokens.Proofs.Grammar.Silence

/-!
# Gaps are reported

What is read in silence is whole: every parser of the grammar that notes no fault gives nodes
without gaps, if the nonterminals do. A parameter is the one place where a name is left out without
a fault. It relies on being dropped when it took no word, and a default value is a word
(`Nonterminals.parameter_silent`).

One lemma for each parser, as for where trees lie. Parsers that leave no node need only keep faults.

The proofs go by the rules for silence. A parser that expects a word and does not find it is silent
about nothing, so all that is left is the case in which it was there.
-/

namespace SharpTokens.Grammar

open Grammar.Parser

variable {input : Input} {lo : Nat}

/-! ## Attributes, modifiers and types

These leave no gaps of their own: words that are passed over here are part of what is read. -/

theorem attributeLists_whole : ReadsAllWhole attributeLists input := by
  refine fun lo => (collect_whole .nil fun found mid =>
    .isAt (.ite (fun _ => .here ?_) fun _ => .pure id)).ret
  exact skipGroup_keeps.andThen fun _ _ =>
    .ret (.node fun hfound => hfound.push (.plain nofun .nil))

theorem modifiers_keeps : Keeps modifiers input := by
  refine .loop fun found lo => .peek ?_
  split
  · exact .bump (.pure trivial)
  · exact .bump (.pure trivial)
  · exact .bump (.pure trivial)
  · exact .look (.ite (fun _ => .bump (.pure trivial)) fun _ => .pure trivial)
  · exact .pure trivial

theorem skipType_keeps : Keeps skipType input := by
  refine fun lo => .lookWithin ?_
  split
  · exact .moveTo (.pure trivial)
  · exact .pure trivial

theorem expectType_keeps : Keeps expectType input :=
  fun _ => skipType_keeps.andThen fun _ mid => .ite (fun _ => .pure trivial) fun _ =>
    expected_keeps _ mid

theorem typeParameters_keeps : Keeps typeParameters input := by
  refine fun lo => .isAt (.ite (fun _ => ?_) fun _ => .pure trivial)
  refine Keeps.andThen (.loop fun depth lo => .peek ?_) fun _ _ => .pure trivial
  split
  · exact .pure trivial
  all_goals first
    | exact .expected (.pure trivial)
    | exact .bump (.ite (fun _ => .pure trivial) fun _ => .pure trivial)

theorem constraints_keeps : Keeps constraints input := by
  refine .loop fun _ lo => .isAtContextual (.ite (fun _ => .bump ?_) fun _ => .pure trivial)
  exact (skipWhile_keeps _).andThen fun _ _ => .pure trivial

theorem typeHeader_keeps : Keeps typeHeader input := skipGroupsWhile_keeps _

/-! ## Expressions

An expression may be empty without a fault, since what stands around it says what is missing. -/

/-- What the nonterminals read in silence is whole. -/
structure Nonterminals.Candid (g : Nonterminals) (input : Input) : Prop where
  expression : ∀ toComma scope, ReadsAllWhole (g.expression toComma scope) input
  namespaceDeclaration : ReadsWhole g.namespaceDeclaration input
  member : ReadsAnyWhole g.member input
  statement : ReadsWhole g.statement input

namespace Nonterminals

variable {g : Nonterminals}

theorem statements_whole (hg : g.Candid input) : ReadsAllWhole (orUnexpected g.statement) input :=
  orUnexpected_whole fun lo => (hg.statement lo).mono fun _ _ => .inr

theorem block_whole (hg : g.Candid input) : ReadsWhole g.block input := by
  refine deeperNode_whole fun lo => .here ((braced_whole (fun _ => statements_whole hg) lo).bind
    fun ts hi => ?_)
  exact .node fun hts => .plain nofun hts

theorem expectBlock_whole (hg : g.Candid input) : ReadsAllWhole g.expectBlock input :=
  fun lo => .isAt (.ite (fun _ => (block_whole hg).one lo) fun _ => .expected (.pure trivial))

/-! ### Parameters and variables

A name that is missing is told by the word it would be at. A parameter has a name unless it took no
word at all, and then it is dropped with a fault; or else it is a bare value. -/

/-- A name that is left out without a fault is looked for where the parameter starts. -/
theorem parameterName_silent (first : Nat) :
    Silent (parameterName first) input lo fun n hi => n.IsPresent ∨ hi = first := by
  refine skipType_keeps.andThen fun _ mid => .ite (fun _ => name_silent.mono fun _ _ => .inl)
    fun _ => .here ?_
  refine .ite (fun _ => .expected (.here (.pure trivial))) fun heq => .here (.pure (.inr ?_))
  exact Decidable.of_not_not heq

/-- **A parameter takes no word, is whole or is a bare value.** -/
theorem parameter_silent (hg : g.Candid input) (style : ParameterStyle) :
    Silent (g.parameter style) input lo fun t hi => hi = lo ∨ Whole input.words t := by
  refine .here ((attributeLists_whole lo).bind fun attributes n => (skipWhile_keeps _).andThen
    fun _ m => .look ?_)
  extract_lets rest
  have hrest : ∀ name k, Silent (rest name) input k fun t hi =>
      name.IsPresent ∨ k = lo → AllWhole input.words attributes → hi = lo ∨
        Whole input.words t := by
    refine fun name k => .eat (fun heq => ?_) fun _ => .after (fun _ => Gives.pure) (.node ?_)
    · refine (hg.expression true .statement (k + 1)).bind fun value hi => .node fun hvalue hname
        hattributes => .inr ?_
      rcases hname with hname | rfl
      · exact .named nofun hname (hattributes.append hvalue)
      · exact .bareValue heq (hattributes.append hvalue)
    · rintro (hname | rfl) hattributes
      · exact .inr (.named nofun hname (hattributes.append .nil))
      · exact .inl rfl
  exact .join (fun _ => name_silent.mono fun _ _ => .inl) (fun _ => parameterName_silent lo) hrest

/-- A parameter without a name is dropped, or it is a bare value, or a fault was noted. -/
theorem parameterList_whole (hg : g.Candid input) (style : ParameterStyle) :
    ReadsWhole (g.parameterList style) input := by
  refine fun lo =>
    .here (.bump ((collect_whole .nil fun found mid => .peek ?_).bind fun found hi => ?_))
  · split
    · refine .ite (fun _ => .bump (.pure id)) fun _ =>
        .ite (fun _ => .expected (.pure trivial)) fun _ => ?_
      refine .ite (fun _ => .bump (.pure id)) fun _ => ?_
      refine (orUnexpected_whole (fun lo => parameter_silent hg style) mid).bind fun ts hi => ?_
      exact .pure fun hts hfound => hfound.more hts
    · exact .expected (.pure trivial)
  · exact .node fun hfound => .plain nofun hfound

theorem expectParameters_whole (hg : g.Candid input) : ReadsAllWhole g.expectParameters input :=
  fun lo => .isAt (.ite (fun _ => (parameterList_whole hg .method).one lo) fun _ =>
    .expected (.pure trivial))

/-- A value that may follow a name. -/
theorem value_whole {f : List Node → Parser Node} {R : Node → Nat → Prop} (hg : g.Candid input)
    (hf : ∀ ts mid, Silent (f ts) input mid fun t hi => AllWhole input.words ts → R t hi) :
    Silent (do
      let found ← eat .eq
      have jp := f
      if found = true then g.expression true .statement >>= jp else pure [] >>= jp) input lo R :=
  .eat (fun _ => (hg.expression true .statement (lo + 1)).bind hf) fun _ =>
    (Silent.pure AllWhole.nil).bind hf

/-- The name was read before, so whether it is there is a premise. -/
theorem declarator_silent (hg : g.Candid input) (name : Name) :
    Silent (g.declarator name) input lo fun t _ => name.IsPresent → Whole input.words t :=
  .isAt (skipGroup_keeps.first fun _ _ => value_whole hg fun _ _ => .node fun hvalue hname =>
    .named nofun hname hvalue)

theorem declarators_silent (hg : g.Candid input) (first : Nat) (name : Name) :
    Silent (g.declarators first name) input lo fun t _ => name.IsPresent → Whole input.words t := by
  refine (declarator_silent hg name).bind fun t mid => ?_
  refine (Silent.loop (fun (found : Array Node) _ => AllWhole input.words found.toList)
    fun found mid => ?_).bind
    fun found hi => .node fun hfound ht hname => .plain nofun (hfound (.one (ht hname)))
  refine .eat (fun _ => name_silent.bind fun name _ => ?_) fun _ => .pure id
  exact (declarator_silent hg name).bind fun t hi => .pure fun ht hname hfound =>
    hfound.push (ht hname)

/-! ### Parts of expressions

What is passed over in an expression is no gap, as expressions are gone through for what is declared
in them. -/

theorem group_whole (hg : g.Candid input) (scope : Scope) :
    ReadsAllWhole (g.group scope) input := by
  refine fun lo => .peek ?_
  extract_lets close?
  cases close? with
  | none => exact .pure .nil
  | some close =>
      refine deeper_whole (fun lo => .bump ((hg.expression false scope (lo + 1)).bind
        fun found mid => ?_)) lo
      exact (expect_keeps close).andThen fun _ _ => .pure id

theorem condition_whole (hg : g.Candid input) : ReadsAllWhole g.condition input :=
  fun lo => .isAt (.ite (fun _ => group_whole hg .group lo) fun _ => .expected (.pure trivial))

theorem lambda_whole (hg : g.Candid input) : ReadsWhole g.lambda input := by
  refine deeperNode_whole fun lo => .here ((skipWhile_keeps _).andThen fun _ n => .isAt ?_)
  extract_lets rest
  have hrest : ∀ parameters mid, Silent (rest parameters) input mid fun t _ =>
      Whole input.words parameters → Whole input.words t := by
    refine fun parameters mid => (expect_keeps .arrow).andThen fun _ k =>
      .isAt (.ite (fun _ => ?_) fun _ => ?_)
    · exact (block_whole hg k).bind fun body hi => .after (fun _ => Gives.pure)
        (.node fun hbody hparameters =>
        .plain nofun (.cons hparameters (.one hbody)))
    · exact (hg.expression true .statement k).bind fun body hi => .node fun hbody hparameters =>
        .plain nofun (.cons hparameters hbody)
  refine .ite (fun _ => (parameterList_whole hg .lambda n).bind hrest) fun _ =>
    .here (name_silent.bind fun name k => ?_)
  refine Silent.bind (P := fun t _ => name.IsPresent → Whole input.words t)
    (.node fun hname => .named nofun hname .nil) fun t mid => ?_
  exact (hrest t mid).mono fun _ _ ht hparameter hname => ht (hparameter hname)

theorem anonymousMethod_whole (hg : g.Candid input) : ReadsWhole g.anonymousMethod input := by
  refine fun lo => .here (.bump (.isAt ?_))
  extract_lets rest
  have hrest : ∀ parameters mid, Silent (rest parameters) input mid fun t _ =>
      AllWhole input.words parameters → Whole input.words t := by
    refine fun parameters mid => (expectBlock_whole hg mid).bind fun body hi => ?_
    exact .node fun hbody hparameters => .plain nofun (hparameters.append hbody)
  refine .ite (fun _ => ?_) fun _ => (Silent.pure AllWhole.nil).bind hrest
  exact (parameterList_whole hg .method _).bind fun t mid => .after (fun _ => Gives.pure)
    ((hrest [t] mid).mono fun _ _ h ht => h (.one ht))

theorem expressionStep_whole (hg : g.Candid input) (scope : Scope) (k : Kind) :
    ReadsAllWhole (g.expressionStep scope k) input := by
  refine fun lo => .ite (fun _ => .look ?_) fun _ => .ite (fun _ => group_whole hg _ lo) fun _ => ?_
  · exact .ite (fun _ => (lambda_whole hg).one lo) fun _ => group_whole hg _ lo
  · refine .ite (fun _ => .look (group_whole hg _ lo)) fun _ => .ite (fun _ => .lookWithin ?_)
      fun _ => .look ?_
    · split
      · exact .moveTo (.pure .nil)
      · exact .bump (.pure .nil)
    · refine .ite (fun _ => (lambda_whole hg).one lo) fun _ => .look ?_
      refine .ite (fun _ => (lambda_whole hg).one lo) fun _ => .look ?_
      exact .ite (fun _ => (anonymousMethod_whole hg).one lo) fun _ => .bump (.pure .nil)

theorem expressionEnds_keeps (toComma : Bool) (scope : Scope) (start : Nat) (k : Kind) :
    Keeps (expressionEnds toComma scope start k) input :=
  fun _ => .ite (fun _ => .pure trivial) fun _ =>
    .lookWithin (.ite (fun _ => .pure trivial) fun _ => .pure trivial)

theorem expressionBody_whole (hg : g.Candid input) (toComma : Bool) (scope : Scope) :
    ReadsAllWhole (g.expressionBody toComma scope) input := by
  refine fun lo => .here (collect_whole .nil fun found mid => .peek ?_).ret
  split
  · exact .pure id
  · refine (expressionEnds_keeps _ _ _ _).andThen fun _ k => .ite (fun _ => .pure id) fun _ => ?_
    exact (expressionStep_whole hg scope _ k).bind fun ts hi => .pure fun hts hfound =>
      hfound.more hts

theorem expressionStatement_whole (hg : g.Candid input) :
    ReadsAllWhole g.expressionStatement input :=
  fun lo => (hg.expression false .statement lo).bind fun _ _ => (expect_keeps _).andThen fun _
    _ => .pure id

theorem memberBody_whole (hg : g.Candid input) : ReadsAllWhole g.memberBody input := by
  refine fun lo => .peek ?_
  split
  · exact (block_whole hg).one lo
  · exact .bump (expressionStatement_whole hg _)
  · exact .bump (.pure .nil)
  · exact .expected (.pure trivial)

/-! ## Statements

By the word ahead, as everywhere. -/

theorem embedded_whole (hg : g.Candid input) : ReadsWhole g.embedded input :=
  deeperNode_whole hg.statement

/-- A statement inside another one, after the nodes found before it. -/
theorem embedded_after (hg : g.Candid input) (found : List Node) :
    Silent (g.embedded >>= fun t => pure (found ++ [t])) input lo fun ts _ =>
      AllWhole input.words found → AllWhole input.words ts :=
  ((embedded_whole hg lo).mono fun _ _ ht hfound => hfound.append (.one ht)).ret

theorem tryVariables_whole (hg : g.Candid input) : ReadsAnyWhole g.tryVariables input := by
  refine fun lo => .lookWithin ?_
  split
  · refine .here (.moveTo (name_silent.bind fun name mid => ?_))
    exact ((declarators_silent hg lo name).mono fun _ _ ht hname => AllWhole.one (ht hname)).ret
  · exact .pure .nil

theorem variablesOrExpression_whole (hg : g.Candid input) :
    ReadsAllWhole g.variablesOrExpression input := by
  refine fun lo => (tryVariables_whole hg lo).bind fun declared? mid => ?_
  cases declared? with
  | some declared => exact .pure id
  | none => exact (hg.expression false .statement mid).mono fun _ _ hts _ => hts

theorem resources_whole (hg : g.Candid input) : ReadsAllWhole g.resources input :=
  fun lo => (variablesOrExpression_whole hg lo).bind fun _ _ => (expect_keeps _).andThen fun _
    _ => .pure id

theorem typedVariables_whole (hg : g.Candid input) : ReadsWhole g.typedVariables input := by
  refine fun lo => .here (expectType_keeps.andThen fun _ _ => name_silent.bind fun name mid => ?_)
  refine (declarators_silent hg lo name).bind fun declared _ => (expect_keeps _).andThen
    fun _ _ => ?_
  exact .pure fun hdeclared hname => hdeclared hname

/-! ### Statements with a keyword

The parts of such a statement are whole, one after another, and so is the statement. -/

theorem conditional_whole (hg : g.Candid input) : ReadsAllWhole g.conditional input :=
  fun lo => (condition_whole hg lo).bind fun found _ => embedded_after hg found

theorem ifStatement_whole (hg : g.Candid input) : ReadsAllWhole g.ifStatement input := by
  refine fun lo => (conditional_whole hg lo).bind fun found mid => .eat (fun _ => ?_)
    fun _ => .pure id
  exact embedded_after hg found

theorem doStatement_whole (hg : g.Candid input) : ReadsAllWhole g.doStatement input := by
  refine fun lo => (embedded_whole hg lo).bind fun body mid => (expect_keeps _).andThen
    fun _ mid => ?_
  refine .join (fun _ => condition_whole hg mid) (fun _ => .pure .nil) fun condition _ => ?_
  exact (expect_keeps _).andThen fun _ _ => .pure fun hcondition hbody => .cons hbody hcondition

theorem forStatement_whole (hg : g.Candid input) : ReadsAllWhole g.forStatement input := by
  refine fun lo => (expect_keeps _).andThen fun _ mid => .ite (fun _ => .isAt ?_) fun _ => ?_
  · refine .join (fun _ => .pure .nil) (fun _ => variablesOrExpression_whole hg mid)
      fun start _ => ?_
    refine (expect_keeps _).andThen fun _ mid => (expressionStatement_whole hg mid).bind
      fun test mid => ?_
    refine (hg.expression false .statement mid).bind fun next _ => (expect_keeps _).andThen
      fun _ mid => ?_
    exact (embedded_after hg _).mono fun _ _ hts hnext htest hstart =>
      hts ((hstart.append htest).append hnext)
  · exact (embedded_whole hg).one mid

theorem fixedStatement_whole (hg : g.Candid input) : ReadsAllWhole g.fixedStatement input := by
  refine fun lo => (expect_keeps _).andThen fun _ mid => ?_
  refine .join (fun _ => resources_whole hg mid) (fun _ => .pure .nil) fun found _ => ?_
  exact embedded_after hg found

theorem usingStatement_whole (hg : g.Candid input) (first : Nat) :
    ReadsWhole (g.usingStatement first) input := by
  refine fun lo => .bump (.eat (fun _ => ?_) fun _ => (tryVariables_whole hg _).bind
    fun declared? mid => ?_)
  · refine (resources_whole hg _).bind fun found mid => (embedded_whole hg mid).bind
      fun body _ => ?_
    exact .node fun hbody hfound => .plain nofun (hfound.append (.one hbody))
  · cases declared? with
    | some declared =>
        exact (expect_keeps _).andThen fun _ _ => .node fun hdeclared => .plain nofun hdeclared
    | none =>
        exact (expressionStatement_whole hg mid).bind fun _ _ => .node fun hts _ => .plain nofun hts

theorem catchClauses_whole (hg : g.Candid input) : ReadsAllWhole g.catchClauses input := by
  refine fun lo => (collect_whole .nil fun found mid => .eat (fun _ => .isAt ?_) fun _ =>
    .pure id).ret
  refine skipGroup_keeps.first fun _ mid => .isAtContextual ?_
  extract_lets rest
  have hrest : ∀ filter mid, Silent (rest filter) input mid fun r _ =>
      AllWhole input.words filter → AllWhole input.words found.toList →
        AllWhole input.words r.found.toList := by
    refine fun filter mid => (expectBlock_whole hg mid).bind fun body _ => ?_
    exact .pure fun hbody hfilter hfound => (hfound.more hfilter).more hbody
  exact .ite (fun _ => .bump ((condition_whole hg _).bind hrest)) fun _ =>
    (Silent.pure AllWhole.nil).bind hrest

theorem tryStatement_whole (hg : g.Candid input) : ReadsAllWhole g.tryStatement input := by
  refine fun lo => (expectBlock_whole hg lo).bind fun body mid => (catchClauses_whole hg mid).bind
    fun handlers mid => ?_
  refine (eat_keeps _).andThen fun _ mid => .join (fun _ => expectBlock_whole hg mid)
    (fun _ => .pure .nil) ?_
  exact fun last _ => .pure fun hlast hhandlers hbody => (hbody.append hhandlers).append hlast

theorem caseLabel_keeps : Keeps caseLabel input :=
  fun _ => (skipGroupsWhile_keeps _).andThen fun _ _ => (expect_keeps _).andThen fun _ _ =>
    .pure trivial

theorem switchItem_whole (hg : g.Candid input) (k : Kind) :
    ReadsAllWhole (g.switchItem k) input := by
  refine fun lo => .ite (fun _ => .bump (caseLabel_keeps.andThen fun _ _ => .pure .nil))
    fun _ => .look ?_
  exact .ite (fun _ => .bump (.bump (.pure .nil))) fun _ => statements_whole hg lo

theorem switchBlock_whole (hg : g.Candid input) : ReadsAllWhole g.switchBlock input := by
  refine fun lo => .isAt (.ite (fun _ => ?_) fun _ => .expected (.pure trivial))
  exact deeper_whole (braced_whole (switchItem_whole hg)) lo

/-! ### Declarations and expressions

Going back to before the modifiers does not undo a fault, and none was noted there. -/

theorem localModifiers_keeps : Keeps localModifiers input := by
  refine .loop fun found lo => .look ?_
  split
  · exact .bump (.pure trivial)
  · exact .pure trivial

theorem skipRef_keeps : Keeps skipRef input := by
  refine fun lo => (eat_keeps _).andThen fun _ mid => ?_
  extract_lets rest
  have hrest : ∀ u mid, Silent (rest u) input mid fun _ _ => True := by
    refine fun _ mid => .look (.ite (fun _ => .bump ?_) fun _ => .pure trivial)
    exact (eat_keeps _).andThen fun _ _ => .pure trivial
  exact .ite (fun _ => (eat_keeps _).andThen fun _ mid => hrest () mid) fun _ => hrest () mid

theorem localFunction_whole (hg : g.Candid input) (first : Nat) (modifiers : Modifiers) :
    ReadsWhole (g.localFunction first modifiers) input := by
  refine fun lo => name_silent.bind fun name _ => typeParameters_keeps.andThen fun _ mid => ?_
  refine (expectParameters_whole hg mid).bind fun parameters _ => constraints_keeps.andThen
    fun _ mid => ?_
  refine (memberBody_whole hg mid).bind fun body _ => ?_
  exact .node fun hbody hparameters hname => .named nofun hname (hparameters.append hbody)

theorem bareExpression_whole (hg : g.Candid input) (first start : Nat) :
    ReadsWhole (g.bareExpression first start) input := by
  refine fun lo => .moveTo ((hg.expression false .statement start).bind fun found mid => .here ?_)
  have hrest : ∀ (u : Unit) mid, Silent (plain .statement first found) input mid fun t _ =>
      AllWhole input.words found → Whole input.words t :=
    fun _ _ => .node fun hfound => .plain nofun hfound
  exact .ite (fun _ => unexpected_keeps.andThen hrest) fun _ => (expect_keeps _).andThen fun _ mid
    => hrest () mid

theorem variableOrExpression_whole (hg : g.Candid input) (first : Nat) :
    ReadsWhole (g.variableOrExpression first) input := by
  refine fun lo => .here (localModifiers_keeps.andThen fun modifiers _ => skipRef_keeps.andThen
    fun _ typeStart => ?_)
  refine .here (.lookWithin ?_)
  split
  · refine .look (.ite (fun _ => .moveTo (name_silent.bind fun name mid => ?_)) fun _ =>
      .look (.ite (fun _ => ?_) ?_))
    · refine (declarators_silent hg typeStart name).bind fun declared _ => (expect_keeps _).andThen
        fun _ _ => ?_
      exact .node fun hdeclared hname => .plain nofun (.one (hdeclared hname))
    · exact .moveTo (localFunction_whole hg first modifiers _)
    · exact fun _ => bareExpression_whole hg first lo typeStart
  · exact bareExpression_whole hg first lo typeStart

theorem declarationOrExpression_whole (hg : g.Candid input) (first : Nat) :
    ReadsWhole (g.declarationOrExpression first) input := by
  refine fun lo => .look (.ite (fun _ => .bump (.bump (.isAt ?_))) fun _ =>
    .look (.ite (fun _ => .bump (.bump ?_)) ?_))
  · have hrest : ∀ labelled mid, Silent (plain .statement first labelled) input mid fun t _ =>
        AllWhole input.words labelled → Whole input.words t :=
      fun _ _ => .node fun hts => .plain nofun hts
    refine .ite (fun _ => (Silent.pure AllWhole.nil).bind hrest) fun _ => ?_
    exact (embedded_whole hg _).bind fun t mid => .after (fun _ => Gives.pure)
      ((hrest [t] mid).mono fun _ _ hts ht => hts (.one ht))
  · exact (expressionStatement_whole hg _).bind fun _ _ => .node fun hts => .plain nofun hts
  · refine fun _ => .look (.ite (fun _ => .bump (usingStatement_whole hg first _))
      fun _ => .look ?_)
    exact .ite (fun _ => .bump (hg.statement _)) fun _ => variableOrExpression_whole hg first lo

theorem afterKeyword_whole {rest : Parser (List Node)} (hrest : ReadsAllWhole rest input)
    (first : Nat) :
    ReadsWhole (afterKeyword first rest) input :=
  fun lo => .bump ((hrest (lo + 1)).bind fun _ _ => .node fun hts => .plain nofun hts)

theorem otherStatement_whole (hg : g.Candid input) (first : Nat) :
    ReadsWhole (g.otherStatement first) input := by
  refine fun lo => .look (.ite (fun _ => (hg.member lo).bind fun member? _ => ?_) fun _ => ?_)
  · cases member? with
    | some member => exact .pure fun hmember => hmember member List.mem_cons_self
    | none => exact .node fun _ => .plain nofun .nil
  · exact declarationOrExpression_whole hg first lo

/-- Whatever form a statement has, it has no gap if no fault was noted. -/
theorem statementBody_whole (hg : g.Candid input) : ReadsWhole g.statementBody input := by
  refine fun lo => .here (.peek ?_)
  have hnothing : Silent (do expected .statement; plain .statement lo []) input lo fun t _ =>
      Whole input.words t :=
    .expected (.node trivial)
  have hstray : Silent (do unexpected; plain .statement lo []) input lo fun t _ =>
      Whole input.words t :=
    unexpected_keeps.andThen fun _ _ => .node (.plain nofun .nil)
  -- forms that several keywords share
  have hcondition := afterKeyword_whole (conditional_whole hg) lo lo
  have hexpression := afterKeyword_whole (expressionStatement_whole hg) lo lo
  have hsemi : ReadsAllWhole (do let _ ← expect .semi; return []) input :=
    fun _ => (expect_keeps .semi).andThen fun _ _ => .pure .nil
  have hbreak := afterKeyword_whole hsemi lo lo
  split
  · exact hnothing
  · exact hnothing
  · exact block_whole hg lo
  · exact afterKeyword_whole (fun _ => .pure .nil) lo lo
  · exact afterKeyword_whole (ifStatement_whole hg) lo lo
  · exact hcondition
  · exact hcondition
  · exact hcondition
  · exact afterKeyword_whole (doStatement_whole hg) lo lo
  · refine afterKeyword_whole (fun lo => (condition_whole hg lo).bind fun condition mid => ?_) lo lo
    exact ((switchBlock_whole hg mid).mono fun _ _ hts hcondition => hcondition.append hts).ret
  · exact afterKeyword_whole (forStatement_whole hg) lo lo
  · exact usingStatement_whole hg lo lo
  · exact afterKeyword_whole (fixedStatement_whole hg) lo lo
  · exact afterKeyword_whole (tryStatement_whole hg) lo lo
  · exact hexpression
  · exact hexpression
  · exact hexpression
  · exact hbreak
  · exact hbreak
  · exact .bump ((typedVariables_whole hg _).bind fun _ _ => .node fun ht => .plain nofun (.one ht))
  · exact hstray
  · exact hstray
  · exact hstray
  · exact hstray
  · refine (attributeLists_whole lo).bind fun attributes mid => .look ?_
    have hrest : ∀ rest mid, Silent (plain .statement lo (attributes ++ rest)) input mid fun t _ =>
        AllWhole input.words rest → AllWhole input.words attributes → Whole input.words t :=
      fun _ _ => .node fun hrest hattributes => .plain nofun (hattributes.append hrest)
    refine .ite (fun _ => ?_) fun _ => (Silent.pure AllWhole.nil).bind hrest
    exact (hg.statement mid).bind fun t mid => .after (fun _ => Gives.pure)
      ((hrest [t] mid).mono fun _ _ hts ht => hts (.one ht))
  · refine .look (.ite (fun _ => ?_) fun _ => otherStatement_whole hg lo lo)
    exact afterKeyword_whole (block_whole hg).one lo lo

/-! ## Members

A member that breaks off leaves a node of passed-over words, which is a gap, and a fault comes with
it. -/

theorem recover_keeps : Keeps recover input := by
  refine fun lo => .peek ?_
  split
  · exact .pure trivial
  · refine .fault (skipGroup_keeps.andThen fun _ _ => (skipGroupsWhile_keeps _).andThen
      fun _ _ => ?_)
    exact (eat_keeps _).andThen fun _ _ => .pure trivial

theorem memberOrRecover_whole {p : Parser (Option Node)} (hp : ReadsAnyWhole p input) :
    ReadsAllWhole (memberOrRecover p) input :=
  fun lo => .here ((hp lo).bind fun _ _ => .here (recover_keeps.first fun _ _ => .pure id))

theorem accessorBody_whole (hg : g.Candid input) : ReadsAllWhole g.accessorBody input := by
  refine fun lo => .peek ?_
  split
  · exact .bump (.pure .nil)
  · exact (block_whole hg).one lo
  · exact .bump (expressionStatement_whole hg _)
  · exact .expected (.pure trivial)

theorem accessorItem_whole (hg : g.Candid input) (k : Kind) :
    ReadsAllWhole (g.accessorItem k) input := by
  refine fun lo => .ite (fun _ => attributeLists_whole lo) fun _ =>
    .ite (fun _ => .bump (.pure .nil)) fun _ => ?_
  refine .ite (fun _ => .bump (accessorBody_whole hg _)) fun _ => .fault ?_
  exact skipGroup_keeps.andThen fun _ _ => .pure trivial

theorem accessorList_whole (hg : g.Candid input) : ReadsAllWhole g.accessorList input :=
  deeper_whole (braced_whole (accessorItem_whole hg))

theorem propertyBody_whole (hg : g.Candid input) : ReadsAllWhole g.propertyBody input := by
  refine fun lo => .peek ?_
  have hrest : ∀ body mid, Silent (do
      let value ← if ← eat .eq then g.expressionStatement else pure []
      return body ++ value) input mid fun ts _ => AllWhole input.words body →
        AllWhole input.words ts := by
    refine fun body mid => (eat_keeps _).andThen fun _ mid => ?_
    refine .join (fun _ => expressionStatement_whole hg mid) (fun _ => .pure .nil) fun value _ => ?_
    exact .pure fun hvalue hbody => hbody.append hvalue
  split
  · exact (accessorList_whole hg lo).bind hrest
  · exact .bump ((expressionStatement_whole hg _).bind hrest)
  · exact .expected (.after (fun _ => Gives.pure) ((hrest [] lo).mono fun _ _ _ => trivial))

theorem typeItem_whole (hg : g.Candid input) (k : Kind) : ReadsAllWhole (g.typeItem k) input :=
  fun lo => .ite (fun _ => .bump (.pure .nil)) fun _ => memberOrRecover_whole hg.member lo

/-- What is read after attributes in silence is whole if they are. -/
def Head.ReadsWhole (h : Head) (p : Parser Node) (input : Input) : Prop :=
  ∀ lo, Silent p input lo fun t _ => AllWhole input.words h.attributes → Whole input.words t

/-- A declaration that breaks off is reported. -/
theorem Head.incomplete_silent (h : Head) {what : Expectation} {Q : Option Node → Nat → Prop} :
    Silent (do expected what; return some (← h.incomplete)) input lo Q :=
  .expected (.ret (.node trivial))

/-! ### Types

A type whose name or body is missing has a fault for it. -/

theorem typeDeclaration_whole (hg : g.Candid input) {kind : NodeKind}
    (hkind : kind ≠ .skippedTokens) (h : Head) :
    h.ReadsWhole (g.typeDeclaration kind h) input := by
  refine fun lo => .bump ?_
  extract_lets rest
  have hrest : ∀ u mid, Silent (rest u) input mid fun t _ =>
      AllWhole input.words h.attributes → Whole input.words t := by
    refine fun _ mid => name_silent.bind fun name _ => typeParameters_keeps.andThen fun _
      mid => .isAt ?_
    extract_lets body
    have hbody : ∀ parameters mid, Silent (body parameters) input mid fun t _ =>
        AllWhole input.words parameters →
        name.IsPresent → AllWhole input.words h.attributes → Whole input.words t := by
      refine fun parameters mid => typeHeader_keeps.andThen fun _ mid => .peek ?_
      have hfinish : ∀ members mid, Silent (h.named kind name (parameters ++ members)) input
          mid fun t _ =>
          AllWhole input.words members → AllWhole input.words parameters → name.IsPresent →
            AllWhole input.words h.attributes → Whole input.words t :=
        fun members mid => .node fun hmembers hparameters hname hattributes =>
          .named hkind hname (hattributes.append (hparameters.append hmembers))
      split
      · refine (deeper_whole (braced_whole (typeItem_whole hg)) mid).bind fun members _ => ?_
        exact (eat_keeps _).andThen fun _ mid => .after (fun _ => Gives.pure) (hfinish members mid)
      · exact .bump ((Silent.pure AllWhole.nil).bind hfinish)
      · exact .expected (.after (fun _ => Gives.pure) ((hfinish [] mid).mono fun _ _ _ => trivial))
    refine .ite (fun _ => ?_) fun _ => (Silent.pure AllWhole.nil).bind hbody
    exact (parameterList_whole hg .method mid).bind fun t mid => .after (fun _ => Gives.pure)
      ((hbody [t] mid).mono fun _ _ hts ht => hts (.one ht))
  refine .ite (fun _ => (eat_keeps _).andThen fun _ mid => .ite (fun _ => hrest () mid) fun _ =>
    ?_) fun _ => ?_
  · exact (eat_keeps _).andThen fun _ mid => hrest () mid
  · exact hrest () _

theorem enumMember_whole (hg : g.Candid input) : ReadsWhole g.enumMember input := by
  refine fun lo => .here ((attributeLists_whole lo).bind fun attributes _ => name_silent.bind
    fun name mid => ?_)
  exact value_whole hg fun _ _ => .node fun hvalue hname hattributes =>
    .named nofun hname (hattributes.append hvalue)

theorem enumItem_whole (hg : g.Candid input) (k : Kind) : ReadsAllWhole (g.enumItem k) input := by
  refine fun lo => .ite (fun _ => .bump (.pure .nil)) fun _ =>
    .ite (fun _ => (enumMember_whole hg).one lo) fun _ => ?_
  exact unexpected_keeps.andThen fun _ _ => .pure .nil

theorem enumDeclaration_whole (hg : g.Candid input) (h : Head) :
    h.ReadsWhole (g.enumDeclaration h) input := by
  refine fun lo => .bump (name_silent.bind fun name _ => typeHeader_keeps.andThen
    fun _ mid => .isAt ?_)
  have hrest : ∀ body mid, Silent (h.named .enumDeclaration name body) input mid fun t _ =>
      AllWhole input.words body → name.IsPresent → AllWhole input.words h.attributes →
        Whole input.words t :=
    fun _ _ => .node fun hbody hname hattributes => .named nofun hname (hattributes.append hbody)
  refine .ite (fun _ => ?_) fun _ => .expected
    (.after (fun _ => Gives.pure) ((hrest [] mid).mono fun _ _ _ => trivial))
  refine (deeper_whole (braced_whole (enumItem_whole hg)) mid).bind fun members _ => ?_
  exact (eat_keeps _).andThen fun _ mid => .after (fun _ => Gives.pure) (hrest members mid)

theorem delegateDeclaration_whole (hg : g.Candid input) (h : Head) :
    h.ReadsWhole (g.delegateDeclaration h) input := by
  refine fun lo => .bump (expectType_keeps.andThen fun _ _ => name_silent.bind fun name _ => ?_)
  refine typeParameters_keeps.andThen fun _ mid => (expectParameters_whole hg mid).bind
    fun parameters _ => ?_
  refine constraints_keeps.andThen fun _ _ => (expect_keeps _).andThen fun _ _ => ?_
  exact .node fun hparameters hname hattributes => .named nofun hname
    (hattributes.append hparameters)

/-- The name of a member that has one is there. -/
def MemberName.IsPresent (found : MemberName) : Prop := ∀ n, found = .name n → n.IsPresent

theorem MemberName.isPresent_name {n : Name} (h : n.IsPresent) : (MemberName.name n).IsPresent := by
  rintro _ ⟨⟩
  exact h

/-! ### Names of members

In silence the name is there, or a keyword stands for it. -/

theorem qualifierStep_silent (found : MemberName) :
    Silent (qualifierStep found) input lo fun r _ => found.IsPresent → r.found.IsPresent := by
  refine .lookWithin ?_
  split
  · exact .pure id
  · refine .moveTo (.look ?_)
    split
    · exact .bump (.ret (name_silent.mono fun _ _ hname _ => MemberName.isPresent_name hname))
    · exact .bump (.pure fun _ => nofun)
    · exact .bump (.pure fun _ => nofun)
    · exact .pure id

theorem memberName_silent : Silent memberName input lo fun found _ => found.IsPresent := by
  refine .isAt (.ite (fun _ => name_silent.bind fun last mid => ?_) fun _ => ?_)
  · refine (Silent.loop (fun (found : MemberName) _ => found.IsPresent) fun found _ =>
      qualifierStep_silent found).mono ?_
    exact fun _ _ hfound hlast => hfound (MemberName.isPresent_name hlast)
  · exact .ret (name_silent.mono fun _ _ hname => MemberName.isPresent_name hname)

/-! ### Members by their kind

An event that is named by a keyword has no name, and a fault. -/

theorem eventDeclaration_whole (hg : g.Candid input) (h : Head) :
    h.ReadsWhole (g.eventDeclaration h) input := by
  refine fun lo => .bump (.here (expectType_keeps.andThen fun _ _ => memberName_silent.bind
    fun found mid => ?_))
  extract_lets rest
  have hrest : ∀ name mid, Silent (rest name) input mid fun t _ =>
      name.IsPresent → AllWhole input.words h.attributes → Whole input.words t := by
    refine fun name mid => .isAt (.ite (fun _ => ?_) fun _ => ?_)
    · exact (accessorList_whole hg mid).bind fun accessors _ => .node fun haccessors hname
        hattributes =>
        .named nofun hname (hattributes.append haccessors)
    · refine (declarators_silent hg _ name).bind fun declared _ => (expect_keeps _).andThen
        fun _ _ => ?_
      exact .node fun hdeclared hname hattributes =>
        .plain nofun (hattributes.append (.one (hdeclared hname)))
  have hmissing : Silent (do expected (.kind .ident); missingName >>= rest) input mid fun t _ =>
      found.IsPresent → AllWhole input.words h.attributes → Whole input.words t :=
    .expected (missingName_keeps.andThen fun name mid => (hrest name mid).mono fun _ _ _ => trivial)
  cases found with
  | name n =>
      exact .after (fun _ => Gives.pure) ((hrest n mid).mono fun _ _ ht hname => ht (hname n rfl))
  | indexer => exact hmissing
  | operator => exact hmissing

/-- Parameters and a body, as several members have them. -/
theorem parametersAndBody_whole (hg : g.Candid input) {f : List Node → List Node → Parser Node}
    {R : Node → Nat → Prop}
    (hf : ∀ parameters body mid, Silent (f parameters body) input mid fun t hi =>
      AllWhole input.words (parameters ++ body) → R t hi) :
    Silent (g.expectParameters >>= fun parameters => g.memberBody >>= f parameters) input lo R := by
  refine (expectParameters_whole hg lo).bind fun parameters mid => (memberBody_whole hg mid).bind
    fun body mid => ?_
  exact (hf parameters body mid).mono fun _ _ ht hbody hparameters => ht (hparameters.append hbody)

theorem conversionOperator_whole (hg : g.Candid input) (h : Head) :
    h.ReadsWhole (g.conversionOperator h) input := by
  refine fun lo => .bump ((expect_keeps _).andThen fun _ _ => (eat_keeps _).andThen fun _ _ => ?_)
  exact expectType_keeps.andThen fun _ _ => parametersAndBody_whole hg fun _ _ _ =>
    .node fun hts hattributes =>
    .plain nofun (hattributes.append hts)

theorem destructor_whole (hg : g.Candid input) (h : Head) :
    h.ReadsWhole (g.destructor h) input := by
  refine fun lo => .bump (name_silent.bind fun name _ => ?_)
  exact parametersAndBody_whole hg fun _ _ _ => .node fun hts hname hattributes =>
    .named nofun hname (hattributes.append hts)

theorem constructor_whole (hg : g.Candid input) (h : Head) :
    h.ReadsWhole (g.constructor h) input := by
  refine fun lo => .bump ((parameterList_whole hg .method _).bind fun parameters _ => ?_)
  have hrest : ∀ call mid, Silent (do
      let body ← g.memberBody
      h.unnamed .constructorDeclaration (parameters :: call ++ body)) input mid fun t _ =>
        AllWhole input.words call →
        Whole input.words parameters → AllWhole input.words h.attributes → Whole input.words t := by
    refine fun call mid => (memberBody_whole hg mid).bind fun body _ => ?_
    exact .node fun hbody hcall hparameters hattributes =>
      .plain nofun (hattributes.append (AllWhole.append (.cons hparameters hcall) hbody))
  refine (eat_keeps _).andThen fun _ _ => .ite (fun _ => .look ?_) fun _ =>
    (Silent.pure AllWhole.nil).bind hrest
  refine .ite (fun _ => .bump ?_) fun _ => ?_
  · exact (condition_whole hg _).bind hrest
  · exact (condition_whole hg _).bind hrest

theorem method_silent (hg : g.Candid input) (h : Head) (name : Name) :
    Silent (g.method h name) input lo fun t _ =>
      name.IsPresent → AllWhole input.words h.attributes → Whole input.words t := by
  refine typeParameters_keeps.andThen fun _ mid => (expectParameters_whole hg mid).bind
    fun parameters _ => ?_
  refine constraints_keeps.andThen fun _ mid => (memberBody_whole hg mid).bind fun body _ => ?_
  exact .node fun hbody hparameters hname hattributes =>
    .named nofun hname (hattributes.append (hparameters.append hbody))

theorem operator_whole (hg : g.Candid input) (h : Head) : h.ReadsWhole (g.operator h) input := by
  refine fun lo => .bump ((eat_keeps _).andThen fun _ _ => (skipWhile_keeps _).andThen
    fun _ _ => ?_)
  exact parametersAndBody_whole hg fun _ _ _ => .node fun hts hattributes =>
    .plain nofun (hattributes.append hts)

theorem indexer_whole (hg : g.Candid input) (h : Head) : h.ReadsWhole (g.indexer h) input := by
  refine fun lo => .bump (.isAt ?_)
  have hrest : ∀ parameters mid, Silent (do
      let body ← g.propertyBody
      h.unnamed .indexerDeclaration (parameters ++ body)) input mid fun t _ =>
        AllWhole input.words parameters → AllWhole input.words h.attributes →
          Whole input.words t := by
    refine fun parameters mid => (propertyBody_whole hg mid).bind fun body _ => ?_
    exact .node fun hbody hparameters hattributes =>
      .plain nofun (hattributes.append (hparameters.append hbody))
  refine .ite (fun _ => (parameterList_whole hg .indexer _).bind fun t mid => ?_) fun _ => ?_
  · exact .after (fun _ => Gives.pure) ((hrest [t] mid).mono fun _ _ hts ht => hts (.one ht))
  · exact .expected (.after (fun _ => Gives.pure) ((hrest [] _).mono fun _ _ _ => trivial))

theorem namedMember_silent (hg : g.Candid input) (h : Head) (typeStart : Nat) (name : Name) :
    Silent (g.namedMember h typeStart name) input lo fun t _ =>
      name.IsPresent → AllWhole input.words h.attributes → Whole input.words t := by
  refine .peek ?_
  have hproperty : Silent (do h.named .propertyDeclaration name (← g.propertyBody)) input
      lo fun t _ =>
      name.IsPresent → AllWhole input.words h.attributes → Whole input.words t :=
    (propertyBody_whole hg lo).bind fun body _ => .node fun hbody hname hattributes =>
      .named nofun hname (hattributes.append hbody)
  split
  · exact method_silent hg h name
  · exact method_silent hg h name
  · exact hproperty
  · exact hproperty
  · refine (declarators_silent hg typeStart name).bind fun declared _ => (expect_keeps _).andThen
      fun _ _ => ?_
    exact .node fun hdeclared hname hattributes =>
      .plain nofun (hattributes.append (.one (hdeclared hname)))

/-- A declaration that is there. -/
theorem Head.ReadsWhole.some {h : Head} {p : Parser Node} (hp : h.ReadsWhole p input) :
    Silent (p >>= fun t => pure (some t)) input lo fun t _ =>
      AllWhole input.words h.attributes → AllWhole input.words t.toList :=
  ((hp lo).mono fun _ _ ht hattributes => AllWhole.one (ht hattributes)).ret

/-- Where nothing was read there is no member, and no gap either. -/
theorem typedMember_silent (hg : g.Candid input) (h : Head) :
    Silent (g.typedMember h) input lo fun t _ =>
      AllWhole input.words h.attributes → AllWhole input.words t.toList := by
  refine .look (.ite (fun _ => (constructor_whole hg h).some) fun _ => (eat_keeps _).andThen
    fun _ mid => ?_)
  extract_lets rest
  have hrest : ∀ u mid, Silent (rest u) input mid fun t _ =>
      AllWhole input.words h.attributes → AllWhole input.words t.toList := by
    refine fun _ typeStart => .here (skipType_keeps.andThen fun _ mid => .ite (fun _ => .peek ?_)
      fun _ => ?_)
    · split
      · exact (operator_whole hg h).some
      · exact (indexer_whole hg h).some
      · refine memberName_silent.bind fun found mid => ?_
        cases found with
        | name n =>
            refine .ret ((namedMember_silent hg h typeStart n).mono
              fun _ _ ht hname hattributes => ?_)
            exact .one (ht (hname n rfl) hattributes)
        | indexer => exact (indexer_whole hg h).some.mono fun _ _ ht _ => ht
        | operator => exact (operator_whole hg h).some.mono fun _ _ ht _ => ht
      · exact h.incomplete_silent
    · exact .ite (fun _ => .pure fun _ => .nil) fun _ => h.incomplete_silent
  exact .ite (fun _ => (eat_keeps _).andThen fun _ mid => hrest () mid) fun _ => hrest () mid

theorem memberDeclaration_whole (hg : g.Candid input) :
    ReadsAnyWhole g.memberDeclaration input := by
  refine fun lo => .here ((attributeLists_whole lo).bind fun attributes _ => modifiers_keeps.andThen
    fun found mid => ?_)
  extract_lets h
  refine .peek ?_
  have htype := fun {kind : NodeKind} (hkind : kind ≠ .skippedTokens) =>
    ((typeDeclaration_whole hg hkind h).some : Silent _ input mid _)
  split
  · exact htype nofun
  · exact htype nofun
  · exact htype nofun
  · exact (enumDeclaration_whole hg h).some
  · exact (delegateDeclaration_whole hg h).some
  · exact (hg.namespaceDeclaration.some mid).mono fun _ _ ht _ => ht
  · exact (eventDeclaration_whole hg h).some
  · refine .bump ((typedVariables_whole hg _).bind fun declared _ => .ret ?_)
    exact .node fun hdeclared hattributes =>
      .one (.plain nofun (hattributes.append (.one hdeclared)))
  · exact (conversionOperator_whole hg h).some
  · exact (conversionOperator_whole hg h).some
  · exact (destructor_whole hg h).some
  · exact .look (.ite (fun _ => htype nofun) fun _ => typedMember_silent hg h)
  · exact .here (.ite (fun _ => .pure fun _ => .nil) fun _ => h.incomplete_silent)

end Nonterminals

/-! ## Whole texts

Words that fit nowhere are faults. -/

theorem usingDirective_whole : ReadsWhole usingDirective input := by
  refine fun lo => .here (.isAt ?_)
  extract_lets rest
  have hrest : ∀ u mid, Silent (rest u) input mid fun t _ => Whole input.words t := by
    refine fun _ mid => .bump ((skipWhile_keeps _).andThen fun _ _ => (expect_keeps _).andThen
      fun _ _ => ?_)
    exact .node (.plain nofun .nil)
  exact .ite (fun _ => .bump (hrest () _)) fun _ => hrest () _

theorem qualifiedName_whole : ReadsWhole qualifiedName input := by
  refine fun lo => .here (name_silent.bind fun start mid => ?_)
  refine Silent.bind (P := fun t _ => start.IsPresent → Whole input.words t)
    (.node fun hname => .named nofun hname .nil) fun part mid => ?_
  refine (Silent.loop (fun t _ => Whole input.words t) fun found mid => ?_).mono
    fun _ _ ht hpart hname => ht (hpart hname)
  refine .eat (fun _ => .here (name_silent.bind fun part mid => ?_)) fun _ => .pure id
  refine Silent.bind (P := fun t _ => part.IsPresent → Whole input.words t)
    (.node fun hname => .named nofun hname .nil) fun right mid => .ret ?_
  exact .node fun hright hname hfound => .plain nofun (.cons hfound (.one (hright hname)))

namespace Nonterminals

variable {g : Nonterminals}

theorem namespaceMember_whole (hg : g.Candid input) : ReadsAllWhole g.namespaceMember input := by
  refine memberOrRecover_whole fun lo => .peek ?_
  split
  · exact hg.namespaceDeclaration.some lo
  · exact .bump (.pure .nil)
  · exact .look (.ite (fun _ => usingDirective_whole.some lo) fun _ => hg.member lo)

theorem restOfFile_whole (hg : g.Candid input) : ReadsAllWhole g.restOfFile input := by
  refine fun lo => (collect_whole .nil fun found mid => .peek ?_).ret
  split
  · exact .pure id
  · exact unexpected_keeps.andThen fun _ _ => .pure id
  · exact (namespaceMember_whole hg mid).bind fun _ _ => .pure fun hts hfound => hfound.more hts

theorem namespaceBody_whole (hg : g.Candid input) : ReadsWhole g.namespaceBody input := by
  refine fun lo => .here (.bump ((qualifiedName_whole _).bind fun name mid => (eat_keeps _).andThen
    fun _ mid => ?_))
  refine .ite (fun _ => (restOfFile_whole hg mid).bind fun members _ => ?_) fun _ => .isAt ?_
  · exact .node fun hmembers hname => .plain nofun (.cons hname hmembers)
  · have hrest : ∀ members mid, Silent (do
        let _ ← eat .semi
        plain .namespaceDeclaration lo (name :: members)) input mid fun t _ =>
          AllWhole input.words members → Whole input.words name → Whole input.words t := by
      refine fun members mid => (eat_keeps _).andThen fun _ _ => ?_
      exact .node fun hmembers hname => .plain nofun (.cons hname hmembers)
    refine .ite (fun _ => (deeper_whole (braced_whole fun _ => namespaceMember_whole hg) mid).bind
      hrest) fun _ => ?_
    exact .expected (.after (fun _ => Gives.pure) ((hrest [] mid).mono fun _ _ _ => trivial))

theorem topLevelItem_whole (hg : g.Candid input) : ReadsAnyWhole g.topLevelItem input := by
  refine fun lo => .peek ?_
  split
  · exact .pure .nil
  · exact .pure .nil
  · refine .lookWithin (.ite (fun _ => hg.statement.some lo) fun _ => .look ?_)
    refine .ite (fun _ => usingDirective_whole.some lo) fun _ => ?_
    refine .ite (fun _ => hg.namespaceDeclaration.some lo) fun _ => .look ?_
    exact .ite (fun _ => hg.member lo) fun _ => hg.statement.some lo

/-- **A text that is read in silence has a tree without gaps.** -/
theorem compilationUnit_whole (hg : g.Candid input) : ReadsWhole g.compilationUnit input := by
  refine fun lo => (collect_whole .nil fun found mid => .peek ?_).bind fun found _ => ?_
  · split
    · exact .pure id
    · refine .here ((topLevelItem_whole hg mid).bind fun item _ => .here ?_)
      exact unexpected_keeps.first fun _ _ => .pure fun hitem hfound => hfound.more hitem
  · exact .node fun hfound => .plain nofun hfound

end Nonterminals

end SharpTokens.Grammar
