import SharpTokens.Grammar.Expression
import SharpTokens.Proofs.Grammar.Placement

/-!
# Phrases lie over their words

What is read of attributes, parameters, variables and expressions lies over the words that are taken
for it, given that the nonterminals do.

The lemmas follow the parsers one by one. What they need of the nonterminals is that these place
what they read (`Nonterminals.Orderly`), so the recursion of the grammar is left for later.
-/

namespace SharpTokens.Grammar

open Grammar.Parser

variable {input : Input} {lo : Nat}

/-! ## Phrases without nonterminals

Attributes leave nodes without names. The others leave none, so it is enough that they go
forward. -/

/-- Attributes hold no names. -/
theorem attributeLists_reads :
    Reads attributeLists input lo fun ts hi => Placed input.words lo hi ts ∧
      nameWordsAll ts = [] := by
  refine (Reads.loop (fun (found : Array Node) hi =>
    Placed input.words lo hi found.toList ∧
      nameWordsAll found.toList = []) ⟨.nil (Nat.le_refl lo), rfl⟩
    ?_).bind fun _ _ h => .pure h
  rintro found mid ⟨hfound, hunnamed⟩
  refine .isAt (.ite (fun _ => .here ?_) fun _ => .pure ⟨hfound, hunnamed⟩)
  refine skipGroup_advances.andThen fun _ past hpast => ?_
  refine Reads.bind (P := fun t hi => hi = past ∧
    t = .node ⟨.attributeList, mid, past, none, .none⟩ [])
    (.node ⟨rfl, rfl⟩) ?_
  rintro _ _ ⟨rfl, rfl⟩
  refine .pure ⟨?_, ?_⟩
  · show Placed input.words lo _ (found.push _).toList
    rw [Array.toList_push]
    exact hfound.append (.plain (.nil hpast) rfl)
  · show nameWordsAll (found.push _).toList = []
    rw [Array.toList_push, nameWordsAll_append, hunnamed]
    rfl

theorem attributeLists_places : PlacesAll attributeLists input :=
  fun _ => attributeLists_reads.mono fun _ _ h => h.1

theorem modifierStep_advances (found : Modifiers) : Advances (modifierStep found) input := by
  refine fun lo => .peek ?_
  split
  · exact .bump (.pure (Nat.le_succ lo))
  · exact .bump (.pure (Nat.le_succ lo))
  · exact .bump (.pure (Nat.le_succ lo))
  · refine .look (.ite (fun _ => .bump (.pure (Nat.le_succ lo))) fun _ => .pure (Nat.le_refl lo))
  · exact .pure (Nat.le_refl lo)

theorem modifiers_advances : Advances modifiers input := .loop modifierStep_advances

theorem skipType_advances : Advances skipType input := by
  refine fun lo => .lookWithin ?_
  split
  · rename_i past hpast
    exact .moveTo (.pure (Nat.le_of_lt (input.words.lt_of_typeEnd? hpast)))
  · exact .pure (Nat.le_refl lo)

theorem expectType_advances : Advances expectType input := by
  refine fun lo => skipType_advances.andThen fun found mid hmid =>
    .ite (fun _ => .pure hmid) fun _ => ?_
  exact (expected_advances _ mid).mono fun _ _ h => Nat.le_trans hmid h

theorem typeParameters_advances : Advances typeParameters input := by
  refine fun lo => .isAt (.ite (fun _ => ?_) fun _ => .pure (Nat.le_refl lo))
  refine Advances.andThen (Advances.loop fun depth lo => .peek ?_) fun _ _ h => .pure h
  split
  · exact .pure (Nat.le_refl lo)
  all_goals first
    | exact .expected (.pure (Nat.le_refl lo))
    | exact .bump (.ite (fun _ => .pure (Nat.le_succ lo)) fun _ => .pure (Nat.le_succ lo))

theorem constraints_advances : Advances constraints input := by
  refine Advances.loop fun _ lo => .isAtContextual (.ite (fun _ => .bump ?_) fun _ =>
    .pure (Nat.le_refl lo))
  exact (skipWhile_advances _).andThen fun _ mid hmid => .pure (Nat.le_of_succ_le hmid)

theorem typeHeader_advances : Advances typeHeader input := skipGroupsWhile_advances _

namespace Nonterminals

variable {g : Nonterminals}

/-- What the nonterminals read lies over the words that they take. -/
structure Orderly (g : Nonterminals) (input : Input) : Prop where
  expression : ∀ toComma scope, PlacesAll (g.expression toComma scope) input
  namespaceDeclaration : Places g.namespaceDeclaration input
  member : PlacesAny g.member input
  statement : Places g.statement input

/-! ## Blocks

Statements lie between the braces. -/

theorem block_places (hg : g.Orderly input) : Places g.block input := by
  refine deeperNode_places fun lo => .here ?_
  refine (braced_places (fun _ => orUnexpected_places hg.statement) lo).bind fun ts hi hts => ?_
  exact .node (.plain hts rfl)

theorem expectBlock_places (hg : g.Orderly input) : PlacesAll g.expectBlock input := by
  refine fun lo => .isAt (.ite (fun _ => ?_) fun _ => .expected (.pure (.nil (Nat.le_refl lo))))
  exact (block_places hg).one lo

/-! ## Parameters

A parameter starts with its attributes and ends with its value, and its name stands between them. -/

/-- The name is where it is read, or it is missing there. -/
theorem parameterName_reads (first : Nat) :
    Reads (parameterName first) input lo fun n hi => NameIn input.words lo hi (some n) := by
  refine skipType_advances.andThen fun found mid hmid => .ite (fun _ => ?_) fun _ => .here ?_
  · exact name_reads.mono fun n hi hn => hn.mono hmid (Nat.le_refl hi)
  · have hmissing : Reads missingName input mid fun n hi => NameIn input.words lo hi (some n) := by
      refine missingName_reads.mono ?_
      rintro _ _ ⟨rfl, rfl⟩
      exact .missing hmid (Nat.le_refl _)
    exact .ite (fun _ => .expected hmissing) fun _ => hmissing

/-- A value that may follow a name or type. -/
theorem value_places {f : List Node → Parser Node} {R : Node → Nat → Prop} (hg : g.Orderly input)
    (hf : ∀ ts mid, Placed input.words lo mid ts → Reads (f ts) input mid R) :
    Reads (do
      let found ← eat .eq
      have jp := f
      if found = true then g.expression true .statement >>= jp else pure [] >>= jp) input lo R := by
  refine .eat (fun _ => ?_) fun _ => ?_
  · refine (hg.expression true .statement (lo + 1)).bind fun ts mid hts => hf ts mid ?_
    exact hts.mono (Nat.le_succ lo) (Nat.le_refl mid)
  · exact hf [] lo (.nil (Nat.le_refl lo))

/-- Attributes, then the name, then the value. -/
theorem parameter_places (hg : g.Orderly input) (style : ParameterStyle) :
    Places (g.parameter style) input := by
  refine fun lo => .here (attributeLists_reads.bind fun attributes n hattributes => ?_)
  obtain ⟨hattributes, hunnamed⟩ := hattributes
  refine (skipWhile_advances _).andThen fun _ m hm => .look ?_
  extract_lets rest
  have hrest : ∀ name k, NameIn input.words m k (some name) →
      Reads (rest name) input k fun t hi => Placed input.words lo hi [t] := by
    intro name k hname
    refine value_places hg fun value hi hvalue => .node ?_
    exact .node hattributes hunnamed (hname.mono hm (Nat.le_refl k)) hvalue rfl
  refine .ite (fun _ => ?_) fun _ => ?_
  · exact name_reads.bind hrest
  · exact (parameterName_reads lo).bind hrest

theorem parameterList_places (hg : g.Orderly input) (style : ParameterStyle) :
    Places (g.parameterList style) input := by
  refine fun lo => .here (.bump ?_)
  refine (collect_places lo (.nil (Nat.le_succ lo)) ?_).bind fun found hi hfound =>
    .node (.plain hfound rfl)
  intro found mid hfound
  have hnext := hfound.mono (Nat.le_refl lo) (Nat.le_succ mid)
  refine .peek ?_
  split
  · refine .ite (fun _ => .bump (.pure hnext)) fun _ => ?_
    refine .ite (fun _ => .expected (.pure hfound)) fun _ => ?_
    refine .ite (fun _ => .bump (.pure hnext)) fun _ => ?_
    refine (orUnexpected_places (parameter_places hg style) mid).bind fun ts hi hts => ?_
    exact .pure (more_places hfound hts)
  · exact .expected (.pure hfound)

theorem expectParameters_places (hg : g.Orderly input) : PlacesAll g.expectParameters input := by
  refine fun lo => .isAt (.ite (fun _ => ?_) fun _ => .expected (.pure (.nil (Nat.le_refl lo))))
  exact (parameterList_places hg .method).one lo

/-! ## Variables

The size of a buffer and the initial value stand behind the name. -/

/-- A variable lies from before its name on, which was taken. -/
theorem declarator_places (hg : g.Orderly input) {n : Nat} {name : Name}
    (hname : NameIn input.words n lo (some name)) :
    Reads (g.declarator name) input lo fun t hi => Placed input.words n hi [t] := by
  refine .isAt ?_
  extract_lets finish rest
  have hrest : ∀ u mid, lo ≤ mid → Reads (rest u) input mid fun t hi => Placed input.words n
      hi [t] := by
    intro u mid hmid
    refine value_places hg fun value hi hvalue => ?_
    refine Reads.node (Placed.mono ?_ hname.le_word (Nat.le_refl hi))
    exact .named (hname.fromWord.mono (Nat.le_refl _) hmid) hvalue rfl
  exact .ite (fun _ => skipGroup_advances.andThen hrest) fun _ => hrest () lo (Nat.le_refl lo)

/-- Variables lie from `first` on, which is before the first of their names. -/
theorem declarators_places (hg : g.Orderly input) {first n : Nat} {name : Name} (hfirst : first ≤ n)
    (hname : NameIn input.words n lo (some name)) :
    Reads (g.declarators first name) input lo fun t hi => Placed input.words first hi [t] := by
  refine (declarator_places hg (hname.mono hfirst (Nat.le_refl lo))).bind fun t mid ht => ?_
  refine (collect_places first ht ?_).bind fun found hi hfound => .node (.plain hfound rfl)
  intro found mid hfound
  refine .eat (fun _ => ?_) fun _ => .pure hfound
  refine name_reads.bind fun name k hname => ?_
  refine (declarator_places hg (hname.mono (Nat.le_succ mid) (Nat.le_refl k))).bind fun t hi
    ht => .pure ?_
  show Placed input.words first hi (found.push t).toList
  rw [Array.toList_push]
  exact hfound.append ht

/-! ## Parts of expressions

An expression is a sequence of parts, of which some leave nodes and the others are passed over. -/

theorem group_places (hg : g.Orderly input) (scope : Scope) : PlacesAll (g.group scope) input := by
  refine fun lo => .peek ?_
  extract_lets close?
  cases close? with
  | none => exact .pure (.nil (Nat.le_refl lo))
  | some close =>
      refine deeper_places (fun lo => .bump ?_) lo
      refine (hg.expression false scope (lo + 1)).bind fun ts mid hts => ?_
      refine (expect_advances close).andThen fun _ hi hhi => .pure ?_
      exact hts.mono (Nat.le_succ lo) hhi

theorem condition_places (hg : g.Orderly input) : PlacesAll g.condition input := by
  refine fun lo => .isAt (.ite (fun _ => group_places hg .group lo) fun _ => ?_)
  exact .expected (.pure (.nil (Nat.le_refl lo)))

/-- Modifiers, then parameters or a name, then the body. -/
theorem lambda_places (hg : g.Orderly input) : Places g.lambda input := by
  refine deeperNode_places fun lo => .here ?_
  refine (skipWhile_advances _).andThen fun _ n hn => .isAt ?_
  extract_lets rest
  have hrest : ∀ parameters mid, Placed input.words n mid [parameters] →
      Reads (rest parameters) input mid fun t hi => Placed input.words lo hi [t] := by
    intro parameters mid hparameters
    refine (expect_advances .arrow).andThen fun _ k hk => .isAt ?_
    have hparameters := hparameters.mono hn hk
    refine .ite (fun _ => ?_) fun _ => ?_
    · exact (block_places hg k).bind fun body hi hbody =>
        .node (.plain (hparameters.append hbody) rfl)
    · exact (hg.expression true .statement k).bind fun body hi hbody =>
        .node (.plain (hparameters.append hbody) rfl)
  refine .ite (fun _ => ?_) fun _ => .here (name_reads.bind fun name mid hname => ?_)
  · exact (parameterList_places hg .lambda n).bind hrest
  · refine Reads.bind (P := fun t hi => Placed input.words n hi [t]) (.node ?_) hrest
    exact .named hname (.nil (Nat.le_refl mid)) rfl

theorem anonymousMethod_places (hg : g.Orderly input) : Places g.anonymousMethod input := by
  refine fun lo => .here (.bump (.isAt ?_))
  extract_lets rest
  have hrest : ∀ parameters mid, Placed input.words (lo + 1) mid parameters →
      Reads (rest parameters) input mid fun t hi => Placed input.words lo hi [t] := by
    intro parameters mid hparameters
    refine (expectBlock_places hg mid).bind fun body hi hbody => .node (.plain ?_ rfl)
    exact (hparameters.append hbody).mono (Nat.le_succ lo) (Nat.le_refl hi)
  refine .ite (fun _ => ?_) fun _ => hrest [] (lo + 1) (.nil (Nat.le_refl _))
  exact (parameterList_places hg .method (lo + 1)).bind fun t mid ht => hrest [t] mid ht

/-- A step through an expression. -/
theorem expressionStep_places (hg : g.Orderly input) (scope : Scope) (k : Kind) :
    PlacesAll (g.expressionStep scope k) input := by
  intro lo
  have hlambda := (lambda_places hg).one lo
  refine .ite (fun _ => .look (.ite (fun _ => hlambda) fun _ => group_places hg _ lo)) fun _ => ?_
  refine .ite (fun _ => group_places hg _ lo) fun _ => ?_
  refine .ite (fun _ => .look (group_places hg _ lo)) fun _ => ?_
  refine .ite (fun _ => .lookWithin ?_) fun _ => .look ?_
  · -- type arguments, or a comparison
    split
    · rename_i past hpast
      exact .moveTo
        (.pure (.nil (Nat.le_of_lt (input.words.lt_of_typeArgumentsInExpression? hpast))))
    · exact .bump (.pure (.nil (Nat.le_succ lo)))
  · refine .ite (fun _ => hlambda) fun _ => .look ?_
    refine .ite (fun _ => hlambda) fun _ => .look ?_
    refine .ite (fun _ => (anonymousMethod_places hg).one lo) fun _ => ?_
    exact .bump (.pure (.nil (Nat.le_succ lo)))

/-- Whether an expression ends is only looked at. -/
theorem expressionEnds_reads (toComma : Bool) (scope : Scope) (start : Nat) (k : Kind) :
    Reads (expressionEnds toComma scope start k) input lo fun _ hi => hi = lo := by
  refine .ite (fun _ => .pure rfl) fun _ => .lookWithin ?_
  exact .ite (fun _ => .pure rfl) fun _ => .pure rfl

theorem expressionBody_places (hg : g.Orderly input) (toComma : Bool) (scope : Scope) :
    PlacesAll (g.expressionBody toComma scope) input := by
  refine fun lo => .here ?_
  refine (collect_places lo (.nil (Nat.le_refl lo)) ?_).bind fun found hi hfound => .pure hfound
  intro found mid hfound
  refine .peek ?_
  split
  · exact .pure hfound
  · rename_i k _
    refine (expressionEnds_reads toComma scope lo k).bind ?_
    rintro ends _ rfl
    refine .ite (fun _ => .pure hfound) fun _ => ?_
    exact (expressionStep_places hg scope k _).bind fun ts hi hts => .pure (more_places hfound hts)

theorem expressionStatement_places (hg : g.Orderly input) :
    PlacesAll g.expressionStatement input := by
  refine fun lo => (hg.expression false .statement lo).bind fun ts mid hts => ?_
  exact (expect_advances .semi).andThen fun _ hi hhi => .pure (hts.mono (Nat.le_refl lo) hhi)

/-! ## Bodies

What stands behind the parameters of a method. -/

/-- An expression after an arrow. -/
theorem arrow_places (hg : g.Orderly input) :
    PlacesAll (bump >>= fun _ => g.expressionStatement) input := by
  refine fun lo => .bump ((expressionStatement_places hg (lo + 1)).mono fun ts hi hts => ?_)
  exact hts.mono (Nat.le_succ lo) (Nat.le_refl hi)

theorem memberBody_places (hg : g.Orderly input) : PlacesAll g.memberBody input := by
  refine fun lo => .peek ?_
  split
  · exact (block_places hg).one lo
  · exact arrow_places hg lo
  · exact .bump (.pure (.nil (Nat.le_succ lo)))
  · exact .expected (.pure (.nil (Nat.le_refl lo)))

end Nonterminals

end SharpTokens.Grammar
