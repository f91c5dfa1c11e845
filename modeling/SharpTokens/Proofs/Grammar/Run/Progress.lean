import SharpTokens.Proofs.Grammar.Run.Calls
import SharpTokens.Proofs.Grammar.Run.Limits

/-!
# Reading comes to an end

Nothing in the grammar runs for ever, and no bound that keeps it from doing so is ever what ends it.
`ComesToEnd` says this of all its parsers (`Reader`), of all its repetitions (`Repetition`), of the
calls between its nonterminals and of what looks ahead; `ofText_comesToEnd` proves it of every text.

This is about every state that a run comes to, so it cannot be said of the result of a parser. It is
said of all parsers from any state that may be come to, and of all calls that are reached from the
start of a text (`Reached`): none of these is past the last word or deeper than the limit, and calls
that come back to a nonterminal have taken a word.
-/

namespace SharpTokens.Grammar

open Grammar.Parser Loosened Relation

/-! ## Parsers and repetitions

Every parser that takes nonterminals is listed, with its premises, so that a statement about all of
them is one statement. The proof has one case for each. -/

/-- The parsers of the grammar over its nonterminals, each with what has to be ahead of it at the
word `lo` or around it, where `d` constructs are open. Those that are `late` take a word before they
ask for a nonterminal. -/
inductive Reader (ws : Words) (d lo : Nat) :
    (late : Bool) → {α : Type} → (Nonterminals → Parser α) → Prop
  | eat (k : Kind) : Reader ws d lo true (fun _ => eat k)
  | expect (k : Kind) : Reader ws d lo true (fun _ => expect k)
  | expected (what : Expectation) : Reader ws d lo true (fun _ => expected what)
  | unexpected : Reader ws d lo true (fun _ => unexpected)
  | name : Reader ws d lo true (fun _ => name)
  | missingName : Reader ws d lo true (fun _ => missingName)
  | skipGroup : Reader ws d lo true (fun _ => skipGroup)
  | skipWhile (holds : Words → Nat → Kind → Bool) : Reader ws d lo true (fun _ => skipWhile holds)
  | skipGroupsWhile (holds : Words → Nat → Kind → Bool) :
      Reader ws d lo true (fun _ => skipGroupsWhile holds)
  | attributeLists : Reader ws d lo true (fun _ => attributeLists)
  | modifiers : Reader ws d lo true (fun _ => modifiers)
  | skipType : Reader ws d lo true (fun _ => skipType)
  | expectType : Reader ws d lo true (fun _ => expectType)
  | typeParameters : Reader ws d lo true (fun _ => typeParameters)
  | constraints : Reader ws d lo true (fun _ => constraints)
  | typeHeader : Reader ws d lo true (fun _ => typeHeader)
  | block : lo < ws.size → Reader ws d lo true (·.block)
  | expectBlock : Reader ws d lo true (·.expectBlock)
  | parameterName (first : Nat) : Reader ws d lo true (fun _ => Nonterminals.parameterName first)
  | parameter (style : ParameterStyle) : Reader ws d lo true (fun g => g.parameter style)
  | parameterList (style : ParameterStyle) :
      lo < ws.size → Reader ws d lo true (fun g => g.parameterList style)
  | expectParameters : Reader ws d lo true (·.expectParameters)
  | declarator (name : Name) : Reader ws d lo true (fun g => g.declarator name)
  | declarators (first : Nat) (name : Name) :
      Reader ws d lo true (fun g => g.declarators first name)
  | group (scope : Scope) : Reader ws d lo true (fun g => g.group scope)
  | condition : Reader ws d lo true (·.condition)
  | lambda : ws.isAny lo [.lparen, .ident, .staticKw] = true → Reader ws d lo true (·.lambda)
  | anonymousMethod : lo < ws.size → Reader ws d lo true (·.anonymousMethod)
  | expressionStep (scope : Scope) {k : Kind} : ws.kind? lo = some k →
      Reader ws d lo true (fun g => g.expressionStep scope k)
  | expressionEnds (toComma : Bool) (scope : Scope) (first : Nat) (k : Kind) :
      Reader ws d lo true (fun _ => Nonterminals.expressionEnds toComma scope first k)
  | expressionStatement : 0 < lo → Reader ws d lo false (·.expressionStatement)
  | memberBody : Reader ws d lo true (·.memberBody)
  | embedded : d < lo → Reader ws d lo false (·.embedded)
  | tryVariables : d < lo → Reader ws d lo false (·.tryVariables)
  | variablesOrExpression : d < lo → Reader ws d lo false (·.variablesOrExpression)
  | resources : d < lo → Reader ws d lo false (·.resources)
  | typedVariables : Reader ws d lo true (·.typedVariables)
  | conditional : d < lo → Reader ws d lo false (·.conditional)
  | ifStatement : d < lo → Reader ws d lo false (·.ifStatement)
  | doStatement : d < lo → Reader ws d lo false (·.doStatement)
  | forStatement : d < lo → Reader ws d lo false (·.forStatement)
  | fixedStatement : d < lo → Reader ws d lo false (·.fixedStatement)
  | usingStatement (first : Nat) : lo < ws.size →
      Reader ws d lo true (fun g => g.usingStatement first)
  | catchClauses : Reader ws d lo true (·.catchClauses)
  | tryStatement : d < lo → Reader ws d lo false (·.tryStatement)
  | caseLabel : Reader ws d lo true (fun _ => Nonterminals.caseLabel)
  | switchItem {k : Kind} : ws.kind? lo = some k → 0 < lo →
      Reader ws d lo false (fun g => g.switchItem k)
  | switchBlock : Reader ws d lo true (·.switchBlock)
  | localModifiers : Reader ws d lo true (fun _ => Nonterminals.localModifiers)
  | skipRef : Reader ws d lo true (fun _ => Nonterminals.skipRef)
  | localFunction (first : Nat) (m : Modifiers) :
      Reader ws d lo true (fun g => g.localFunction first m)
  | variableOrExpression (first : Nat) :
      Reader ws d lo false (fun g => g.variableOrExpression first)
  | declarationOrExpression (first : Nat) :
      Reader ws d lo false (fun g => g.declarationOrExpression first)
  | otherStatement (first : Nat) : Reader ws d lo false (fun g => g.otherStatement first)
  | recover : Reader ws d lo true (fun _ => Nonterminals.recover)
  | accessorBody : Reader ws d lo true (·.accessorBody)
  | accessorItem {k : Kind} : ws.kind? lo = some k → Reader ws d lo true (fun g => g.accessorItem k)
  | accessorList : lo < ws.size → Reader ws d lo true (·.accessorList)
  | propertyBody : Reader ws d lo true (·.propertyBody)
  | typeItem {k : Kind} : ws.kind? lo = some k → 0 < lo →
      Reader ws d lo false (fun g => g.typeItem k)
  | typeDeclaration (kind : NodeKind) {h : Nonterminals.Head} : h.Flat → lo < ws.size →
      Reader ws d lo true (fun g => g.typeDeclaration kind h)
  | enumMember : ws.isAny lo [.lbracket, .ident] = true → Reader ws d lo true (·.enumMember)
  | enumItem {k : Kind} : ws.kind? lo = some k → Reader ws d lo true (fun g => g.enumItem k)
  | enumDeclaration {h : Nonterminals.Head} :
      h.Flat → lo < ws.size → Reader ws d lo true (fun g => g.enumDeclaration h)
  | delegateDeclaration {h : Nonterminals.Head} : h.Flat → lo < ws.size →
      Reader ws d lo true (fun g => g.delegateDeclaration h)
  | qualifiedMember (last : Name) : Reader ws d lo true (fun _ => Nonterminals.qualifiedMember last)
  | memberName : Reader ws d lo true (fun _ => Nonterminals.memberName)
  | eventDeclaration {h : Nonterminals.Head} : h.Flat → lo < ws.size →
      Reader ws d lo true (fun g => g.eventDeclaration h)
  | conversionOperator {h : Nonterminals.Head} : h.Flat → lo < ws.size →
      Reader ws d lo true (fun g => g.conversionOperator h)
  | destructor {h : Nonterminals.Head} :
      h.Flat → lo < ws.size → Reader ws d lo true (fun g => g.destructor h)
  | constructor {h : Nonterminals.Head} : h.Flat → ws.is (lo + 1) .lparen = true →
      Reader ws d lo true (fun g => g.constructor h)
  | method {h : Nonterminals.Head} (name : Name) :
      h.Flat → Reader ws d lo true (fun g => g.method h name)
  | operator {h : Nonterminals.Head} :
      h.Flat → lo < ws.size → Reader ws d lo true (fun g => g.operator h)
  | indexer {h : Nonterminals.Head} :
      h.Flat → lo < ws.size → Reader ws d lo true (fun g => g.indexer h)
  | namedMember {h : Nonterminals.Head} (typeStart : Nat) (name : Name) : h.Flat →
      Reader ws d lo true (fun g => g.namedMember h typeStart name)
  | typedMember {h : Nonterminals.Head} : h.Flat → Reader ws d lo true (fun g => g.typedMember h)
  | usingDirective : ws.startsUsing lo = true → Reader ws d lo true (fun _ => usingDirective)
  | qualifiedName : Reader ws d lo true (fun _ => qualifiedName)
  | namespaceMember : 0 < lo → lo < ws.size → Reader ws d lo false (·.namespaceMember)
  | restOfFile : 0 < lo → Reader ws d lo false (·.restOfFile)
  | topLevelItem : Reader ws d lo false (·.topLevelItem)
  | nonterminal (x : Symbol) : x.Ahead ws lo → Reader ws d lo false (fun g => g.body x)

/-- The steps that are repeated anywhere in the grammar. -/
inductive Repetition (lo : Nat) : {σ : Type} → (Nonterminals → σ → Parser (Step σ)) → Prop
  | skip (holds : Words → Nat → Kind → Bool) : Repetition lo (fun _ => skipStep holds)
  | skipGroup (holds : Words → Nat → Kind → Bool) : Repetition lo (fun _ => skipGroupStep holds)
  | attributes : Repetition lo (fun _ => attributeStep)
  | modifier : Repetition lo (fun _ => modifierStep)
  | typeParameter : Repetition lo (fun _ => typeParameterStep)
  | constraint : Repetition lo (fun _ => constraintStep)
  | parameter (style : ParameterStyle) : Repetition lo (fun g => g.parameterStep style)
  | declarator : Repetition lo (·.declaratorStep)
  | scan (toComma : Bool) (scope : Scope) (first : Nat) :
      Repetition lo (fun g => g.scanStep toComma scope first)
  | catches : Repetition lo (·.catchStep)
  | localModifier : Repetition lo (fun _ => Nonterminals.localModifierStep)
  | qualifier : Repetition lo (fun _ => Nonterminals.qualifierStep)
  | dotted (first : Nat) : Repetition lo (fun _ => dottedStep first)
  | block : 0 < lo → Repetition lo (fun g => bracedStep fun _ => orUnexpected g.statement)
  | sections : 0 < lo → Repetition lo (fun g => bracedStep g.switchItem)
  | accessors : Repetition lo (fun g => bracedStep g.accessorItem)
  | members : 0 < lo → Repetition lo (fun g => bracedStep g.typeItem)
  | values : Repetition lo (fun g => bracedStep g.enumItem)
  | namespaceMembers : 0 < lo → Repetition lo (fun g => bracedStep fun _ => g.namespaceMember)
  | rest : 0 < lo → Repetition lo (·.restStep)
  | unit : Repetition lo (·.unitStep)

section

variable {α σ : Type} {c : Loosened} {g g' : Nonterminals} {d lo : Nat}

/-! ### Each of them goes forward

With one limit for both parsers, `Tracks` says of a parser that it ends at a word that is not behind
where it starts. The lemmas about runs say so already, each in its own postcondition. -/

/-- A parser ends at or after the word it started from. -/
theorem Loosened.Tracks.onwards {c : Loosened} {p q : Parser α} {Q : α → Nat → Prop}
    (h : Tracks c p q d lo fun a hi => lo ≤ hi ∧ Q a hi) : Tracks c p q d lo fun _ hi => lo ≤ hi :=
  h.mono fun _ _ _ h => h.1

theorem Loosened.Tracks.onwards_of_lt {c : Loosened} {p q : Parser α} {Q : α → Nat → Prop}
    (h : Tracks c p q d lo fun a hi => lo < hi ∧ Q a hi) : Tracks c p q d lo fun _ hi => lo ≤ hi :=
  h.mono fun _ _ _ h => Nat.le_of_lt h.1

/-- Every parser comes to an end and goes on only, if the nonterminals do so that it asks for. -/
theorem Reader.tracks {late : Bool} {p : Nonterminals → Parser α} (hp : Reader c.words d lo late p)
    (h : c.Ready d lo) (hg : ∀ z {d mid : Nat}, c.Ready d mid → z.Ahead c.words mid → lo ≤ mid →
      (late = true → lo < mid) →
      Tracks c (g.parser z) (g'.parser z) d mid (c.Fits d mid z)) :
    Tracks c (p g) (p g') d lo fun _ hi => lo ≤ hi := by
  have hlater : Alike c g g' lo d fun _ _ => True :=
    ⟨fun z hr hlt hz _ => hg z hr hz (Nat.le_of_lt hlt) fun _ => hlt⟩
  have hvalues : Alike c g g' lo d values := hlater.mono fun _ _ _ => trivial
  have hle := Nat.le_refl lo
  -- parsers that are not late may ask for nonterminals at the word ahead
  have hself : late = false → ∀ z, z.Ahead c.words lo →
      Tracks c (g.parser z) (g'.parser z) d lo (c.Fits d lo z) := by
    rintro rfl z hz
    exact hg z h hz hle nofun
  have hhere : late = false → 0 < lo → Alike c g g' (lo - 1) d fun _ _ => True := by
    rintro rfl hpos
    exact ⟨fun z hr hlt hz _ => hg z hr hz (by omega) nofun⟩
  have hvaluesHere : late = false → 0 < lo → Alike c g g' (lo - 1) d values :=
    fun hlate hpos => (hhere hlate hpos).mono fun _ _ _ => trivial
  have hinside : d < lo → c.Inside (lo - 1) d lo := fun hd => ⟨h, hd, by omega⟩
  have hloop := fun (_ : c.words.isContextual lo "await" = true) hnext =>
    Nonterminals.awaited_tracks hlater h hle hnext trivial
  cases hp with
  | eat k => exact eat_tracks k h.le_size
  | expect k => exact expect_tracks k h.le_size
  | expected what => exact (expected_tracks what h.le_size).mono fun _ _ _ h => Nat.le_of_eq h.symm
  | unexpected => exact (unexpected_tracks h.le_size).onwards
  | name => exact (name_tracks h.le_size).onwards
  | missingName => exact missingName_tracks h.le_size
  | skipGroup =>
      have hskip : ∀ limit, Gives Parser.skipGroup ⟨c.words, limit⟩ d lo ()
          (c.words.pastGroup lo) #[] :=
        fun _ => Gives.skipGroup
      exact .steady hskip (Words.pastGroup_le_size h.le_size) (c.words.le_pastGroup lo)
  | skipWhile holds => exact (skipWhile_tracks holds h.le_size).onwards
  | skipGroupsWhile holds => exact skipGroupsWhile_tracks holds h.le_size
  | attributeLists => exact (attributeLists_tracks h.le_size).onwards
  | modifiers => exact modifiers_tracks h.le_size
  | skipType => exact (skipType_tracks h.le_size).onwards
  | expectType => exact expectType_tracks h.le_size
  | typeParameters => exact typeParameters_tracks h.le_size
  | constraints => exact constraints_tracks h.le_size
  | typeHeader => exact typeHeader_tracks h.le_size
  | block hlo => exact (Nonterminals.block_tracks hlater h hlo hle).onwards_of_lt
  | expectBlock => exact (Nonterminals.expectBlock_tracks hlater h hle).onwards
  | parameterName first => exact Nonterminals.parameterName_tracks first h.le_size
  | parameter style =>
      exact (Nonterminals.parameter_tracks hlater style h hle fun _ _ _ => trivial).onwards
  | parameterList style hlo =>
      exact (Nonterminals.parameterList_tracks hlater style (h.mono (Nat.le_succ lo) hlo) hle
        fun _ _ _ => trivial).onwards_of_lt
  | expectParameters => exact (Nonterminals.expectParameters_tracks hvalues h hle).onwards
  | declarator name => exact (Nonterminals.declarator_tracks hvalues name h hle).onwards
  | declarators first name =>
      exact (Nonterminals.declarators_tracks hvalues first name h hle).onwards
  | group scope => exact (Nonterminals.group_tracks hlater scope h hle).onwards
  | condition => exact (Nonterminals.condition_tracks hlater h hle).onwards
  | lambda hword => exact (Nonterminals.lambda_tracks hlater h hle hword).onwards_of_lt
  | anonymousMethod hlo =>
      exact (Nonterminals.anonymousMethod_tracks hlater h hlo hle fun _ _ _ _ =>
        trivial).onwards_of_lt
  | expressionStep scope hk => 
      exact (Nonterminals.expressionStep_tracks hlater scope h hk hle fun _ _ =>
        trivial).onwards_of_lt
  | expressionEnds toComma scope first k =>
      refine (Nonterminals.expressionEnds_tracks toComma scope first k h.le_size).mono ?_
      exact fun _ _ _ h => Nat.le_of_eq h.symm
  | expressionStatement hpos =>
      exact (Nonterminals.expressionStatement_tracks (hvaluesHere rfl hpos) h (by omega)).onwards
  | memberBody => exact (Nonterminals.memberBody_tracks hvalues h hle).onwards
  | embedded hd =>
      exact (Nonterminals.embedded_tracks (hhere rfl (Nat.zero_lt_of_lt hd)) (hinside hd)).onwards
  | tryVariables hd =>
      exact (Nonterminals.tryVariables_tracks (hvaluesHere rfl (Nat.zero_lt_of_lt hd))
        (hinside hd)).onwards
  | variablesOrExpression hd =>
      exact (Nonterminals.variablesOrExpression_tracks (hvaluesHere rfl (Nat.zero_lt_of_lt hd))
        (hinside hd)).onwards
  | resources hd =>
      exact (Nonterminals.resources_tracks (hvaluesHere rfl (Nat.zero_lt_of_lt hd))
        (hinside hd)).onwards
  | typedVariables => exact (Nonterminals.typedVariables_tracks hvalues h hle).onwards
  | conditional hd =>
      exact (Nonterminals.conditional_tracks (hhere rfl (Nat.zero_lt_of_lt hd))
        (hinside hd)).onwards
  | ifStatement hd =>
      exact (Nonterminals.ifStatement_tracks (hhere rfl (Nat.zero_lt_of_lt hd))
        (hinside hd)).onwards
  | doStatement hd =>
      exact (Nonterminals.doStatement_tracks (hhere rfl (Nat.zero_lt_of_lt hd))
        (hinside hd)).onwards
  | forStatement hd =>
      exact (Nonterminals.forStatement_tracks (hvaluesHere rfl (Nat.zero_lt_of_lt hd))
        (hinside hd)).onwards
  | fixedStatement hd =>
      exact (Nonterminals.fixedStatement_tracks (hvaluesHere rfl (Nat.zero_lt_of_lt hd))
        (hinside hd)).onwards
  | usingStatement first hlo =>
      exact (Nonterminals.usingStatement_tracks hvalues first h hlo hle).onwards
  | catchClauses => exact (Nonterminals.catchClauses_tracks hlater h hle).onwards
  | tryStatement hd =>
      exact (Nonterminals.tryStatement_tracks (hhere rfl (Nat.zero_lt_of_lt hd))
        (hinside hd)).onwards
  | caseLabel => exact Nonterminals.caseLabel_tracks h.le_size
  | switchItem hk hpos =>
      exact (Nonterminals.switchItem_tracks (hhere rfl hpos) h hk (by omega) trivial).onwards_of_lt
  | switchBlock => exact (Nonterminals.switchBlock_tracks hlater h hle).onwards
  | localModifiers => exact Nonterminals.localModifiers_tracks h.le_size
  | skipRef => exact Nonterminals.skipRef_tracks h.le_size
  | localFunction first m => exact (Nonterminals.localFunction_tracks hvalues first m h hle).onwards
  | variableOrExpression first =>
      have hexpression := hself rfl (.expression false .statement) trivial
      exact (Nonterminals.variableOrExpression_tracks hvalues first h hle hexpression).onwards
  | declarationOrExpression first =>
      have hexpression := hself rfl (.expression false .statement) trivial
      exact (Nonterminals.declarationOrExpression_tracks hvalues first h hle hexpression
        hloop).onwards
  | otherStatement first =>
      have hexpression := hself rfl (.expression false .statement) trivial
      exact (Nonterminals.otherStatement_tracks hvalues first h hle
        (hself rfl .member trivial) hexpression
        hloop).onwards
  | recover => exact (Nonterminals.recover_tracks h.le_size).onwards
  | accessorBody => exact (Nonterminals.accessorBody_tracks hvalues h hle).onwards
  | accessorItem hk => exact (Nonterminals.accessorItem_tracks hvalues h hk hle).onwards_of_lt
  | accessorList hlo => exact (Nonterminals.accessorList_tracks hlater h hlo hle).onwards
  | propertyBody => exact (Nonterminals.propertyBody_tracks hvalues h hle).onwards
  | typeItem hk hpos =>
      exact (Nonterminals.typeItem_tracks (hhere rfl hpos) h hk (by omega) trivial).onwards_of_lt
  | typeDeclaration kind hh hlo =>
      exact (Nonterminals.typeDeclaration_tracks hvalues kind hh h hlo hle).onwards
  | enumMember hword => exact (Nonterminals.enumMember_tracks hvalues h hle hword).onwards_of_lt
  | enumItem hk => exact (Nonterminals.enumItem_tracks hvalues h hk hle).onwards_of_lt
  | enumDeclaration hh hlo =>
      exact (Nonterminals.enumDeclaration_tracks hlater hh h hlo hle).onwards
  | delegateDeclaration hh hlo =>
      exact (Nonterminals.delegateDeclaration_tracks hvalues hh h hlo hle).onwards
  | qualifiedMember last => exact (Nonterminals.qualifiedMember_tracks last h.le_size).onwards
  | memberName => exact (Nonterminals.memberName_tracks h.le_size).onwards
  | eventDeclaration hh hlo =>
      exact (Nonterminals.eventDeclaration_tracks hvalues hh h hlo hle).onwards
  | conversionOperator hh hlo =>
      exact (Nonterminals.conversionOperator_tracks hvalues hh h hlo hle).onwards
  | destructor hh hlo => exact (Nonterminals.destructor_tracks hvalues hh h hlo hle).onwards
  | constructor hh hopen => exact (Nonterminals.constructor_tracks hvalues hh h hopen hle).onwards
  | method name hh => exact (Nonterminals.method_tracks hvalues hh name h hle).onwards
  | operator hh hlo => exact (Nonterminals.operator_tracks hvalues hh h hlo hle).onwards
  | indexer hh hlo => exact (Nonterminals.indexer_tracks hvalues hh h hlo hle).onwards
  | namedMember typeStart name hh =>
      exact (Nonterminals.namedMember_tracks hvalues hh typeStart name h hle).onwards
  | typedMember hh => exact (Nonterminals.typedMember_tracks hvalues hh h hle).onwards
  | usingDirective husing => exact (usingDirective_tracks husing).onwards_of_lt
  | qualifiedName => exact (qualifiedName_tracks h.le_size).onwards
  | namespaceMember hpos hlo =>
      exact (Nonterminals.namespaceMember_tracks (hhere rfl hpos) h hlo (by omega) ⟨trivial,
        trivial⟩).onwards_of_lt
  | restOfFile hpos =>
      exact (Nonterminals.restOfFile_tracks (hhere rfl hpos) h (by omega) fun _ _ =>
        ⟨trivial, trivial⟩).onwards
  | topLevelItem => exact (Nonterminals.topLevelItem_tracks h (hself rfl)).onwards
  | nonterminal x hx =>
      have hbody := Nonterminals.body_tracks x h hx fun d' mid y hr hy hafter _ =>
        hg y hr hy (by omega) nofun
      cases x with
      | expression toComma scope => exact hbody.onwards
      | namespaceDeclaration => exact hbody.onwards_of_lt
      | member => exact hbody.onwards
      | statement => exact hbody.onwards

theorem Loosened.Tracks.Collects.onward {P : Node → Prop} {D : Nat → Prop} {found : Array Node}
    {r : Step (Array Node)} {hi : Nat} (h : Collects P D found lo r hi) : Onward lo r hi := by
  cases r with
  | more _ => exact ⟨h.1, trivial⟩
  | done _ => exact ⟨h.1, trivial⟩

theorem Loosened.Tracks.Moves.onward {I D : σ → Nat → Prop} {r : Step σ} {hi : Nat}
    (h : Moves I D lo r hi) :
    Onward lo r hi := by
  cases r with
  | more _ => exact ⟨h.1, trivial⟩
  | done _ => exact ⟨h.1, trivial⟩

/-- A step that goes on has taken a word. -/
theorem Repetition.tracks {step : Nonterminals → σ → Parser (Step σ)}
    (hstep : Repetition lo step) {mid : Nat} (hlo : lo ≤ mid) (h : c.Ready d mid)
    (hg : ∀ z {d later : Nat}, c.Ready d later → z.Ahead c.words later → mid ≤ later →
      Tracks c (g.parser z) (g'.parser z) d later (c.Fits d later z)) (found : σ) :
    Tracks c (step g found) (step g' found) d mid (Tracks.Onward mid) := by
  have hlater : Alike c g g' mid d fun _ _ => True :=
    ⟨fun z hr hlt hz _ => hg z hr hz (Nat.le_of_lt hlt)⟩
  have hvalues : Alike c g g' mid d Loosened.values := hlater.mono fun _ _ _ => trivial
  have hle := Nat.le_refl mid
  have hhere : 0 < lo → Alike c g g' (mid - 1) d fun _ _ => True :=
    fun hpos => ⟨fun z hr hlt hz _ => hg z hr hz (by omega)⟩
  cases hstep with
  | skip holds => exact (skipStep_tracks holds _ h.le_size).mono fun _ _ _ h => h.onward
  | skipGroup holds => exact skipGroupStep_tracks holds _ h.le_size
  | attributes => exact (attributeStep_tracks _ h.le_size).mono fun _ _ _ h => h.onward
  | modifier => exact modifierStep_tracks _ h.le_size
  | typeParameter => exact typeParameterStep_tracks _ h.le_size
  | constraint => exact constraintStep_tracks _ h.le_size
  | parameter style =>
      exact (Nonterminals.parameterStep_tracks hlater style _ h hle fun _ _ _ => trivial).mono fun _
        _ _ h => h.onward
  | declarator =>
      exact (Nonterminals.declaratorStep_tracks hvalues _ h hle).mono fun _ _ _ h => h.onward
  | scan toComma scope first =>
      exact (Nonterminals.scanStep_tracks hlater toComma scope first _ h hle fun _ _ =>
        trivial).mono fun _ _ _ h => h.onward
  | catches => exact (Nonterminals.catchStep_tracks hlater _ h hle).mono fun _ _ _ h => h.onward
  | localModifier => exact Nonterminals.localModifierStep_tracks _ h.le_size
  | qualifier => exact (Nonterminals.qualifierStep_tracks _ h.le_size).mono fun _ _ _ h => h.onward
  | dotted first => exact (dottedStep_tracks first _ h.le_size).mono fun _ _ _ h => h.onward
  | block hpos =>
      have hstatement := (hhere hpos).statement h (by omega) trivial
      exact (bracedStep_tracks h.le_size fun k hk _ =>
        orUnexpected_tracks (Words.lt_size_of_kind? hk) hstatement).mono fun _ _ _ h => h.onward
  | sections hpos =>
      exact (bracedStep_tracks h.le_size fun k hk _ =>
        Nonterminals.switchItem_tracks (hhere hpos) h hk (by omega) trivial).mono fun _ _ _
          h => h.onward
  | accessors =>
      exact (bracedStep_tracks h.le_size fun k hk _ =>
        Nonterminals.accessorItem_tracks hvalues h hk hle).mono fun _ _ _ h => h.onward
  | members hpos =>
      exact (bracedStep_tracks h.le_size fun k hk _ =>
        Nonterminals.typeItem_tracks (hhere hpos) h hk (by omega) trivial).mono fun _ _ _
          h => h.onward
  | values =>
      exact (bracedStep_tracks h.le_size fun k hk _ =>
        Nonterminals.enumItem_tracks hvalues h hk hle).mono fun _ _ _ h => h.onward
  | namespaceMembers hpos =>
      exact (bracedStep_tracks h.le_size fun k hk _ =>
        Nonterminals.namespaceMember_tracks (hhere hpos) h
        (Words.lt_size_of_kind? hk) (by omega) ⟨trivial, trivial⟩).mono fun _ _ _ h => h.onward
  | rest hpos =>
      exact (Nonterminals.restStep_tracks (hhere hpos) _ h (by omega) ⟨trivial, trivial⟩).mono fun _
        _ _ h => h.onward
  | unit =>
      refine (Nonterminals.unitStep_tracks _ h fun x hx => ?_).mono fun _ _ _ h => h.onward
      exact hg x h hx hle

end

/-! ## Bounds on looking ahead

A function that is given a bound on its calls says the same for any bound that is large enough. -/

/-- From a bound on, a function of its bound does not change. -/
def Settled {β : Type} (bound : Nat) (f : Nat → β) : Prop := ∀ n, bound ≤ n → f n = f bound

/-- Nothing that looks ahead comes to the end of its bound: more than the words ahead, three times
as many for types, change nothing. -/
structure LooksSettle (ws : Words) : Prop where
  closing? : ∀ depth i, Settled (ws.size - i) (ws.closing? · depth i)
  pastClosing : ∀ depth i, Settled (ws.size - i) (ws.pastClosing · depth i)
  pastCommas : ∀ i, Settled (ws.size - i) (ws.pastCommas · i)
  typeSuffixes? : ∀ i, Settled (ws.size - i + 1) (ws.typeSuffixes? · i)
  typePart? : ∀ part budget i, Settled (ws.typeFuel i) (ws.typePart? · part budget i)
  pastAttributes? : ∀ i, Settled (ws.size - i) (ws.pastAttributes? · i)
  leadsToMember : ∀ i, Settled (ws.size - i) (ws.leadsToMember · i)
  closesBeforeArrow : ∀ depth i, Settled (ws.size - i) (ws.closesBeforeArrow · depth i)
  leadsToLambda : ∀ i, Settled (ws.size - i) (ws.leadsToLambda · i)

/-- One field for each look. -/
theorem looksSettle (ws : Words) : LooksSettle ws where
  closing? _ _ _ hn := Words.closing?_stable hn (Nat.le_refl _)
  pastClosing _ _ _ hn := Words.pastClosing_stable hn (Nat.le_refl _)
  pastCommas _ _ hn := Words.pastCommas_stable hn (Nat.le_refl _)
  typeSuffixes? _ _ hn := Words.typeSuffixes?_stable hn (Nat.lt_succ_self _)
  typePart? part _ _ n hn := by
    have hrank : part.rank ≤ 2 := by cases part <;> simp [Words.TypePart.rank]
    exact Words.typePart?_stable (by simp only [Words.typeFuel] at hn; omega)
      (by simp only [Words.typeFuel]; omega)
  pastAttributes? _ _ hn := Words.pastAttributes?_stable hn (Nat.le_refl _)
  leadsToMember _ _ hn := Words.leadsToMember_stable hn (Nat.le_refl _)
  closesBeforeArrow _ _ _ hn := Words.closesBeforeArrow_stable hn (Nat.le_refl _)
  leadsToLambda _ _ hn := Words.leadsToLambda_stable hn (Nat.le_refl _)

/-! ## Whole texts

What was shown for words under any limit is put together for a text. -/

abbrev grammarOf (words : Words) : Nonterminals := .unfolded (4 * (words.size + 1))

/-- A nonterminal is asked for when words are read. -/
def Reached (words : Words) (limit : Nat) (a : Symbol × State) : Prop :=
  ∃ first : Symbol × State,
    Asks (·.compilationUnit) (grammarOf words) ⟨words, limit⟩ .initial first.1 first.2 ∧
      ReflTransGen (Calls (grammarOf words) ⟨words, limit⟩) first a

/-- Reading some words comes to an end. -/
structure ComesToEnd (words : Words) (limit : Nat) : Prop where
  /-- All words are taken, all constructs are closed, and how often the grammar is unfolded does not
  matter, nor what it is unfolded over. -/
  whole : ∃ tree more, parse words limit = ⟨tree, more.toList⟩ ∧
    ∀ base n, 4 * (words.size + 1) ≤ n →
    Gives (Nonterminals.unfoldedOver base n).compilationUnit ⟨words, limit⟩ 0 0 tree words.size more
  /-- Every parser gives a result, goes on only and not past the last word, and closes what it
  opens. -/
  readers : ∀ {α : Type} {late : Bool} {p : Nonterminals → Parser α} {d lo : Nat},
    Reader words d lo late p →
    d ≤ lo → d ≤ limit → lo ≤ words.size →
    ∃ a hi more, Gives (p (grammarOf words)) ⟨words, limit⟩ d lo a hi more ∧ lo ≤ hi ∧
    hi ≤ words.size
  /-- Every repetition ends with a step that is done, after steps that each take a word, and no
  bound on the number of steps changes that. -/
  repetitions : ∀ {σ : Type} {step : Nonterminals → σ → Parser (Step σ)} {d lo : Nat},
    Repetition lo step →
    d ≤ lo → d ≤ limit → lo ≤ words.size →
    ∀ found, ∃ r hi more, Repeats (step (grammarOf words)) ⟨words, limit⟩ d found lo r hi more ∧
      lo ≤ hi ∧ hi ≤ words.size ∧ ∀ bound, words.size - lo < bound →
        Gives (repeatUpTo (step (grammarOf words)) bound found) ⟨words, limit⟩ d lo r hi more
  /-- A parser asks for nonterminals from the word ahead on, or past it if it is late. -/
  asks : ∀ {α : Type} {late : Bool} {p : Nonterminals → Parser α} {s : State} {y : Symbol}
    {t : State},
    Reader words s.guard.depth s.pos late p →
    s.guard.depth ≤ s.pos → s.guard.depth ≤ limit → s.pos ≤ words.size →
    Asks p (grammarOf words) ⟨words, limit⟩ s y t → s.pos ≤ t.pos ∧ (late = true → s.pos < t.pos)
  /-- No nonterminal is asked for past the last word or deeper than the limit. -/
  reached : ∀ {a}, Reached words limit a → a.2.pos ≤ words.size ∧ a.2.guard.depth ≤ limit
  /-- Calls that come back to a nonterminal have taken a word. -/
  recursion : ∀ {x s t}, Reached words limit (x, s) →
    TransGen (Calls (grammarOf words) ⟨words, limit⟩) (x, s) (x, t) → s.pos < t.pos
  /-- A construct is opened within the limit only. -/
  guarded : ∀ guard opened, Guard.enter guard limit = .ok opened → opened.depth ≤ limit
  /-- Looking ahead ends at a word or at the last one. -/
  looks : LooksSettle words

/-- A guard that lets one in is within the limit. -/
theorem Guard.depth_le_of_enter {guard opened : Guard} {limit : Nat}
    (h : guard.enter limit = .ok opened) :
    opened.depth ≤ limit := by
  simp only [Guard.enter] at h
  split at h
  · cases h
  · cases h
    exact Nat.le_of_not_lt ‹_›

section

variable {words : Words} {limit : Nat} (few : words.size < Guard.unlimited)

include few

/-! ### Calls from the start of a text

A text starts at its first word, in no construct. Whatever is called from there may start, by
induction on the calls. -/

/-- A text is read the same however often the grammar is unfolded beyond what it needs, and from
whatever it is. -/
theorem parse_whole : ∃ tree more, parse words limit = ⟨tree, more.toList⟩ ∧
    ∀ base n, 4 * (words.size + 1) ≤ n →
      Gives (Nonterminals.unfoldedOver base n).compilationUnit ⟨words, limit⟩ 0 0 tree
      words.size more := by
  obtain ⟨tree, hi, more, hp, -, ⟨rfl, -⟩, -⟩ := Nonterminals.compilationUnit_unfolding_tracks
    (c := same words limit few) (.unfolded 0) (.unfolded 0) (Nat.le_refl _) (Nat.le_refl _)
  refine ⟨tree, more, ?_, fun base n hn => ?_⟩
  · rw [← Nonterminals.unfolded_eq] at hp
    exact parse_eq hp
  · obtain ⟨tree', hi', more', hp', -, -, hq'⟩ := Nonterminals.compilationUnit_unfolding_tracks
      (c := same words limit few) (.unfolded 0) base (Nat.le_refl _) hn
    obtain ⟨rfl, rfl, rfl⟩ := hp.unique hp'
    exact hq' (.inl rfl)

/-- What a parser asks for lies further on, or it is asked for before a word is taken. -/
theorem Reader.later {α : Type} {late : Bool} {p : Nonterminals → Parser α} {s t : State}
    {y : Symbol} (hp : Reader words s.guard.depth s.pos late p)
    (hs : (same words limit few).Ready s.guard.depth s.pos)
    (h : Asks p (grammarOf words) ⟨words, limit⟩ s y t) :
    s.pos ≤ t.pos ∧ (late = true → s.pos < t.pos) := by
  refine (Asks.needed few (Nat.le_refl _) (fun _ _ lo => s.pos ≤ lo ∧ (late = true → s.pos < lo))
    (fun g' hg => ?_) h).2
  exact Tracks.eq few (hp.tracks hs fun z _ _ hr hz hle hlt => hg z hr hz ⟨hle, hlt⟩)

theorem Reached.mayStart {a : Symbol × State} (h : Reached words limit a) :
    MayStart words limit a := by
  obtain ⟨first, hasks, hchain⟩ := h
  exact mayStart_of_reflTransGen few (Nat.le_refl _)
    (mayStart_of_asks few (Nat.le_refl _) hasks) hchain

variable (limit) in
/-- The fields of the statement, from what was shown above. -/
theorem comesToEnd_of_few : ComesToEnd words limit where
  whole := parse_whole few
  readers hp hd hlimit hlo := by
    have hready : (same words limit few).Ready _ _ := ⟨hd, hlimit, hlo⟩
    obtain ⟨a, hi, more, hgives, hhi, hle, -⟩ := hp.tracks hready fun z _ _ hr hz _ _ =>
      unfolded_tracks few (Nat.le_refl _) z hr hz
    exact ⟨a, hi, more, hgives, hle, hhi⟩
  repetitions hstep hd hlimit hlo found := by
    have hready : (same words limit few).Ready _ _ := ⟨hd, hlimit, hlo⟩
    obtain ⟨r, hi, more, hrepeats, hhi, ⟨hle, -⟩, -⟩ :=
      Tracks.repeats (fun _ _ => True) (fun _ _ => True) hlo trivial fun found mid hmid hsize _ =>
        hstep.tracks hmid (hready.mono hmid hsize)
          (fun z _ _ hr hz _ => unfolded_tracks few (Nat.le_refl _) z hr hz)
          found
    exact ⟨r, hi, more, hrepeats, hle, hhi, fun bound hbound => hrepeats.repeatUpTo hlo hbound⟩
  asks hp hd hlimit hlo h := hp.later few ⟨hd, hlimit, hlo⟩ h
  reached h := ⟨(h.mayStart few).1.2.2, (h.mayStart few).1.2.1⟩
  recursion h hcalls := by
    rcases later_of_transGen few (Nat.le_refl _) (h.mayStart few) hcalls with hlt | ⟨-, hrank⟩
    · exact hlt
    · exact absurd hrank (Nat.lt_irrefl _)
  guarded _ _ h := Guard.depth_le_of_enter h
  looks := looksSettle words

end

end SharpTokens.Grammar

namespace SharpTokens

open Text Grammar

/-- **Reading any text comes to an end**, under any limit. -/
theorem ofText_comesToEnd (text : List Char) (limit : Nat)
    (hsize : byteSize text < Guard.unlimited) :
    ComesToEnd (wordsOfText text) limit ∧
      (SourceFile.ofText text limit).tree = (parse (wordsOfText text) limit).tree :=
  ⟨comesToEnd_of_few limit (wordsOfText_few hsize), rfl⟩

/-- Braces that are not closed, without a limit. -/
theorem ofText_comesToEnd_unclosed :
    byteSize "class C \x7b void M() \x7b if (x) \x7b [A] ( => ) ".toList < Guard.unlimited ∧
      ComesToEnd (wordsOfText "class C \x7b void M() \x7b if (x) \x7b [A] ( => ) ".toList)
      Guard.unlimited :=
  ⟨by decide, (ofText_comesToEnd _ Guard.unlimited (by decide)).1⟩

end SharpTokens
