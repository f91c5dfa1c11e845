import SharpTokens.Grammar.Unit
import SharpTokens.Proofs.Grammar.Members

/-!
# Whole texts lie over their words

Namespaces and texts, and with them the recursion of the grammar: since each of its parsers places
what it reads if the nonterminals do, so does every unfolding of it, and the tree of a text lies
over its words (`parse_placed`).

The tree of a text is a node over all of its words. That it covers them all is because the loop at
the top of a text ends only when there is no word ahead.
-/

namespace SharpTokens.Grammar

open Grammar.Parser

variable {input : Input} {lo : Nat}

theorem usingDirective_places : Places usingDirective input := by
  refine fun lo => .here (.isAt ?_)
  -- with a word before the keyword or without, what follows is the same
  extract_lets rest
  have hrest : ∀ u n, lo ≤ n → Reads (rest u) input n fun t hi => Placed input.words lo hi [t] := by
    intro u n hn
    refine .bump ((skipWhile_advances _).andThen fun _ m hm => ?_)
    refine (expect_advances .semi).andThen fun _ hi hhi => .node (.plain (.nil ?_) rfl)
    omega
  exact .ite (fun _ => .bump (hrest () _ (Nat.le_succ lo))) fun _ => hrest () lo (Nat.le_refl lo)

/-- A part of a dotted name, over its word. -/
theorem part_placed {ws : Words} {first hi : Nat} {part : Name}
    (hpart : NameIn ws first hi (some part)) :
    Placed ws first hi [.node ⟨.identifierName, first, hi, some part, .none⟩ []] :=
  .named hpart (.nil (Nat.le_refl hi)) rfl

/-- Each further part is put over the name so far. -/
theorem qualifiedName_reads :
    Reads qualifiedName input lo fun t hi => IsDottedName t ∧ Placed input.words lo hi [t] := by
  refine .here (name_reads.bind fun start n hstart => ?_)
  refine Reads.bind (P := fun t hi => IsDottedName t ∧ Placed input.words lo hi [t])
    (.node ⟨.part rfl, part_placed hstart⟩) fun t mid ht => ?_
  refine Reads.loop (fun t hi => IsDottedName t ∧ Placed input.words lo hi [t]) ht ?_
  rintro found mid ⟨hdotted, hfound⟩
  refine .eat (fun _ => .here (name_reads.bind fun part past hpart => ?_)) fun _ =>
    .pure ⟨hdotted, hfound⟩
  refine Reads.bind
    (P := fun t hi => hi = past ∧ t = .node ⟨.identifierName, mid + 1, past, some part, .none⟩ [])
    (.node ⟨rfl, rfl⟩) ?_
  rintro _ _ ⟨rfl, rfl⟩
  refine Reads.bind (P := fun t hi => IsDottedName t ∧ Placed input.words lo hi [t])
    (.node ⟨?_, ?_⟩)
    fun _ _ h => .pure h
  · exact .dot rfl rfl hdotted (.part rfl)
  · exact .plain (hfound.append ((part_placed hpart).mono (Nat.le_succ mid) (Nat.le_refl _))) rfl

/-- A namespace, whose name comes first of what is below it. -/
theorem Placed.namespaced {ws : Words} {kind : NodeKind} {first n hi : Nat} {modifiers : Modifiers}
    {name : Node} {members : List Node} (hdotted : IsDottedName name)
    (hname : Placed ws first n [name]) (hmembers : Placed ws n hi members)
    (hkind : kind ≠ .compilationUnit) :
    Placed ws first hi [.node ⟨kind, first, hi, none, modifiers⟩ (name :: members)] :=
  .cons (Nat.le_refl first) (.nil (Nat.le_refl first)) rfl (.none (Nat.le_refl first))
    (hname.append hmembers) ⟨hkind, fun _ => ⟨name, members, rfl, hdotted⟩⟩ (.nil (Nat.le_refl hi))

namespace Nonterminals

variable {g : Nonterminals}

/-! ## Namespaces

A namespace starts with its name, which is what the walk through the tree relies on. -/

theorem namespaceMember_places (hg : g.Orderly input) : PlacesAll g.namespaceMember input := by
  refine memberOrRecover_places fun lo => .peek ?_
  split
  · exact hg.namespaceDeclaration.some lo
  · exact .bump (.pure (.nil (Nat.le_succ lo)))
  · exact .look (.ite (fun _ => usingDirective_places.some lo) fun _ => hg.member lo)

theorem restOfFile_places (hg : g.Orderly input) : PlacesAll g.restOfFile input := by
  intro lo
  refine (collect_places lo (.nil (Nat.le_refl lo)) ?_).bind fun found hi hfound => .pure hfound
  intro found mid hfound
  refine .peek ?_
  split
  · exact .pure hfound
  · exact unexpected_advances.andThen fun _ hi hhi => .pure (hfound.mono (Nat.le_refl lo) hhi)
  · exact (namespaceMember_places hg mid).bind fun ts hi hts => .pure (more_places hfound hts)

theorem namespaceBody_places (hg : g.Orderly input) : Places g.namespaceBody input := by
  refine fun lo => .here (.bump (qualifiedName_reads.bind fun name n hname => ?_))
  obtain ⟨hdotted, hname⟩ := hname
  have hname := hname.mono (Nat.le_succ lo) (Nat.le_refl n)
  refine .eat (fun _ => ?_) fun _ => .isAt ?_
  · refine (restOfFile_places hg _).bind fun members hi hmembers => .node ?_
    exact .namespaced hdotted hname (hmembers.mono (Nat.le_succ n) (Nat.le_refl hi))
      NodeKind.noConfusion
  · extract_lets rest
    have hrest : ∀ members m, Placed input.words n m members →
        Reads (rest members) input m fun t hi => Placed input.words lo hi [t] := by
      intro members m hmembers
      refine (eat_advances .semi).andThen fun _ hi hhi => .node ?_
      exact .namespaced hdotted hname (hmembers.mono (Nat.le_refl n) hhi) NodeKind.noConfusion
    refine .ite (fun _ => ?_) fun _ => .expected (hrest [] n (.nil (Nat.le_refl n)))
    exact (deeper_places (braced_places fun _ => namespaceMember_places hg) n).bind hrest

/-! ## Texts

Whatever fits nowhere is passed over, so there is always progress up to the end. -/

theorem topLevelItem_places (hg : g.Orderly input) : PlacesAny g.topLevelItem input := by
  refine fun lo => .peek ?_
  have hstatement := hg.statement.some lo
  split
  · exact .pure (.nil (Nat.le_refl lo))
  · exact .pure (.nil (Nat.le_refl lo))
  · refine .lookWithin (.ite (fun _ => hstatement) fun _ => .look ?_)
    refine .ite (fun _ => usingDirective_places.some lo) fun _ => ?_
    refine .ite (fun _ => hg.namespaceDeclaration.some lo) fun _ => .look ?_
    exact .ite (fun _ => hg.member lo) fun _ => hstatement

theorem compilationUnit_places (hg : g.Orderly input) :
    Reads g.compilationUnit input 0 fun t hi =>
      ∃ ts, t = .node ⟨.compilationUnit, 0, hi, none, .none⟩ ts ∧ Placed input.words 0 hi ts := by
  refine (collect_places 0 (.nil (Nat.le_refl 0)) ?_).bind fun found hi hfound =>
    .node ⟨_, rfl, hfound⟩
  intro found mid hfound
  refine .peek ?_
  split
  · exact .pure hfound
  · refine .here ((topLevelItem_places hg mid).bind fun item n hitem =>
      .here (.ite (fun _ => ?_) fun _ => ?_))
    · refine unexpected_advances.andThen fun _ hi hhi => .pure (more_places hfound ?_)
      exact hitem.mono (Nat.le_refl mid) hhi
    · exact .pure (more_places hfound hitem)

/-- Every unfolding of the grammar places what it reads. -/
theorem unfolded_orderly (input : Input) (n : Nat) : (unfolded n).Orderly input := by
  induction n with
  | zero =>
      -- nothing is read, and what covers no words lies anywhere
      have hskipped : Places (do plain .skippedTokens (← here) []) input :=
        fun lo => .here (.node (.plain (.nil (Nat.le_refl lo)) rfl))
      exact {
        expression := fun _ _ lo => .pure (.nil (Nat.le_refl lo))
        namespaceDeclaration := hskipped
        member := fun lo => .pure (.nil (Nat.le_refl lo))
        statement := hskipped }
  | succ n ih =>
      exact {
        expression := expressionBody_places ih
        namespaceDeclaration := namespaceBody_places ih
        member := memberDeclaration_places ih
        statement := statementBody_places ih }

end Nonterminals

/-- **The tree of a text lies over its words.** Its root is the whole text, and no node below is
one. -/
theorem parse_placed (words : Words) (limit : Nat) :
    ∃ hi ts, (parse words limit).tree = .node ⟨.compilationUnit, 0, hi, none, .none⟩ ts ∧
      Placed words 0 hi ts :=
  ⟨_, Nonterminals.compilationUnit_places (Nonterminals.unfolded_orderly ⟨words, limit⟩ _)
    .initial rfl⟩

end SharpTokens.Grammar
