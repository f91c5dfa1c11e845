import SharpTokens.Grammar.Member
import SharpTokens.Proofs.Grammar.Statements

/-!
# Declarations lie over their words

The same for types and their members. A declaration lies from its head on: its attributes come
first, and its name stands before everything else that is below it.

A head is carried along until the kind of declaration is known, together with where it was read up
to (`Head.Read`). The node is then made over the head and what follows it.
-/

namespace SharpTokens.Grammar.Nonterminals

open Grammar.Parser

variable {g : Nonterminals} {input : Input} {lo : Nat}

/-! ## Heads

Attributes hold no names, so the name of a declaration comes first in the order of names. -/

/-- The head of a declaration was read up to `n`: its attributes lie before, and hold no names. -/
structure Head.Read (h : Head) (ws : Words) (n : Nat) : Prop where
  attributes : Placed ws h.first n h.attributes
  unnamed : nameWordsAll h.attributes = []

/-- The declaration that a parser reads lies from its head on. -/
def PlacesAfter (h : Head) (p : Parser Node) (input : Input) : Prop :=
  ∀ lo, h.Read input.words lo → Reads p input lo fun t hi => Placed input.words h.first hi [t]

namespace Head

variable {h : Head} {n : Nat} {kind : NodeKind} {children : List Node}

theorem Read.mono {ws : Words} {n' : Nat} (hh : h.Read ws n) (hn : n ≤ n') : h.Read ws n' :=
  ⟨hh.attributes.mono (Nat.le_refl _) hn, hh.unnamed⟩

theorem named_reads {m : Nat} {name : Name} (hh : h.Read input.words n)
    (hname : NameIn input.words n m (some name)) (hts : Placed input.words m lo children)
    (hkind : isFree kind = true) :
    Reads (h.named kind name children) input lo fun t hi => Placed input.words h.first hi [t] :=
  .node (.node hh.attributes hh.unnamed hname hts hkind)

theorem unnamed_reads (hh : h.Read input.words n) (hts : Placed input.words n lo children)
    (hkind : isFree kind = true) :
    Reads (h.unnamed kind children) input lo fun t hi => Placed input.words h.first hi [t] :=
  .node (.plain (hh.attributes.append hts) hkind)

theorem incomplete_reads (hh : h.Read input.words lo) :
    Reads h.incomplete input lo fun t hi => Placed input.words h.first hi [t] :=
  .node (.plain hh.attributes rfl)

end Head

/-! ## Recovery

What is passed over leaves no node. -/

theorem recover_advances : Advances recover input := by
  refine fun lo => .peek ?_
  split
  · exact .pure (Nat.le_refl lo)
  · refine .fault (skipGroup_advances.andThen fun _ n hn => ?_)
    refine (skipGroupsWhile_advances _).andThen fun _ m hm => ?_
    exact (eat_advances .semi).andThen fun _ hi hhi => .pure (by omega)

theorem memberOrRecover_places {p : Parser (Option Node)} (hp : PlacesAny p input) :
    PlacesAll (memberOrRecover p) input := by
  refine fun lo => .here ((hp lo).bind fun found mid hfound => .here ?_)
  refine .ite (fun _ => ?_) fun _ => .pure hfound
  exact recover_advances.andThen fun _ hi hhi => .pure (hfound.mono (Nat.le_refl lo) hhi)

/-! ## Accessors

They have no names of their own. -/

theorem accessorBody_places (hg : g.Orderly input) : PlacesAll g.accessorBody input := by
  refine fun lo => .peek ?_
  split
  · exact .bump (.pure (.nil (Nat.le_succ lo)))
  · exact (block_places hg).one lo
  · exact arrow_places hg lo
  · exact .expected (.pure (.nil (Nat.le_refl lo)))

theorem accessorList_places (hg : g.Orderly input) : PlacesAll g.accessorList input := by
  refine deeper_places (braced_places fun k lo => ?_)
  refine .ite (fun _ => attributeLists_places lo) fun _ => ?_
  refine .ite (fun _ => .bump (.pure (.nil (Nat.le_succ lo)))) fun _ => ?_
  refine .ite (fun _ => .bump ?_) fun _ => .fault ?_
  · refine (accessorBody_places hg (lo + 1)).mono fun ts hi hts => ?_
    exact hts.mono (Nat.le_succ lo) (Nat.le_refl hi)
  · exact skipGroup_advances.andThen fun _ hi hhi => .pure (.nil hhi)

theorem propertyBody_places (hg : g.Orderly input) : PlacesAll g.propertyBody input := by
  refine fun lo => .peek ?_
  extract_lets rest
  have hrest : ∀ body mid, Placed input.words lo mid body →
      Reads (rest body) input mid fun ts hi => Placed input.words lo hi ts := by
    intro body mid hbody
    refine .eat (fun _ => ?_) fun _ => .pure (hbody.append (.nil (Nat.le_refl mid)))
    refine (expressionStatement_places hg (mid + 1)).bind fun value hi hvalue => .pure ?_
    exact hbody.append (hvalue.mono (Nat.le_succ mid) (Nat.le_refl hi))
  split
  · exact (accessorList_places hg lo).bind hrest
  · refine .bump ((expressionStatement_places hg (lo + 1)).bind fun body mid hbody => ?_)
    exact hrest body mid (hbody.mono (Nat.le_succ lo) (Nat.le_refl mid))
  · exact .expected (hrest [] lo (.nil (Nat.le_refl lo)))

/-! ## Types

The name stands behind the keyword, and the members between the braces behind it. -/

theorem typeItem_places (hg : g.Orderly input) (k : Kind) : PlacesAll (g.typeItem k) input := by
  refine fun lo => .ite (fun _ => .bump (.pure (.nil (Nat.le_succ lo)))) fun _ => ?_
  exact memberOrRecover_places hg.member lo

/-- A record has its parameters between its name and its body. -/
theorem typeDeclaration_places (hg : g.Orderly input) {kind : NodeKind} (hkind : isFree kind = true)
    (h : Head) : PlacesAfter h (g.typeDeclaration kind h) input := by
  refine fun lo hh => .bump ?_
  extract_lets rest
  have hrest : ∀ u n, lo ≤ n → Reads (rest u) input n fun t hi => Placed input.words h.first
      hi [t] := by
    intro u n hn
    refine name_reads.bind fun name n₁ hname => ?_
    refine typeParameters_advances.andThen fun _ n₂ hn₂ => .isAt ?_
    extract_lets body
    have hbody : ∀ parameters n₃, Placed input.words n₂ n₃ parameters →
        Reads (body parameters) input n₃ fun t hi => Placed input.words h.first hi [t] := by
      intro parameters n₃ hparameters
      refine typeHeader_advances.andThen fun _ n₄ hn₄ => .peek ?_
      extract_lets finish
      have hfinish : ∀ members hi, Placed input.words n₄ hi members →
          Reads (finish members) input hi fun t hi => Placed input.words h.first hi [t] := by
        intro members hi hmembers
        have hbelow := (hparameters.mono (Nat.le_refl n₂) hn₄).append hmembers
        exact Head.named_reads (hh.mono hn) (hname.mono (Nat.le_refl n) hn₂) hbelow hkind
      split
      · refine (deeper_places (braced_places (typeItem_places hg)) n₄).bind fun members mid
          hmembers => ?_
        refine (eat_advances .semi).andThen fun _ hi hhi => ?_
        exact hfinish members hi (hmembers.mono (Nat.le_refl n₄) hhi)
      · exact .bump (hfinish [] (n₄ + 1) (.nil (Nat.le_succ n₄)))
      · exact .expected (hfinish [] n₄ (.nil (Nat.le_refl n₄)))
    refine .ite (fun _ => ?_) fun _ => hbody [] n₂ (.nil (Nat.le_refl n₂))
    exact (parameterList_places hg .method n₂).bind fun t n₃ ht => hbody [t] n₃ ht
  refine .ite (fun _ => ?_) fun _ => hrest () (lo + 1) (Nat.le_succ lo)
  refine (eat_advances .classKw).andThen fun found n hn =>
    .ite (fun _ => hrest () n (by omega)) fun _ => ?_
  exact (eat_advances .structKw).andThen fun _ m hm => hrest () m (by omega)

theorem enumMember_places (hg : g.Orderly input) : Places g.enumMember input := by
  refine fun lo => .here (attributeLists_reads.bind fun attributes n hattributes => ?_)
  obtain ⟨hattributes, hunnamed⟩ := hattributes
  refine name_reads.bind fun name m hname => ?_
  refine value_places hg fun value hi hvalue => .node ?_
  exact .node hattributes hunnamed hname hvalue rfl

theorem enumItem_places (hg : g.Orderly input) (k : Kind) : PlacesAll (g.enumItem k) input := by
  refine fun lo => .ite (fun _ => .bump (.pure (.nil (Nat.le_succ lo)))) fun _ => ?_
  refine .ite (fun _ => (enumMember_places hg).one lo) fun _ => ?_
  exact unexpected_advances.andThen fun _ hi hhi => .pure (.nil hhi)

theorem enumDeclaration_places (hg : g.Orderly input) (h : Head) :
    PlacesAfter h (g.enumDeclaration h) input := by
  refine fun lo hh => .bump (name_reads.bind fun name n hname => ?_)
  refine typeHeader_advances.andThen fun _ m hm => .isAt ?_
  have hfinish : ∀ members hi, Placed input.words m hi members →
      Reads (h.named .enumDeclaration name members) input hi
        fun t hi => Placed input.words h.first hi [t] :=
    fun members hi hmembers => Head.named_reads hh (hname.mono (Nat.le_succ lo) hm) hmembers rfl
  refine .ite (fun _ => ?_) fun _ => .expected (hfinish [] m (.nil (Nat.le_refl m)))
  refine (deeper_places (braced_places (enumItem_places hg)) m).bind fun members mid hmembers => ?_
  refine (eat_advances .semi).andThen fun _ hi hhi => ?_
  exact hfinish members hi (hmembers.mono (Nat.le_refl m) hhi)

theorem delegateDeclaration_places (hg : g.Orderly input) (h : Head) :
    PlacesAfter h (g.delegateDeclaration h) input := by
  refine fun lo hh => .bump (expectType_advances.andThen fun _ n hn => ?_)
  refine name_reads.bind fun name n₁ hname => ?_
  refine typeParameters_advances.andThen fun _ n₂ hn₂ => ?_
  refine (expectParameters_places hg n₂).bind fun parameters n₃ hparameters => ?_
  refine constraints_advances.andThen fun _ n₄ hn₄ => ?_
  refine (expect_advances .semi).andThen fun _ hi hhi => ?_
  refine Head.named_reads hh (hname.mono (Nat.le_of_succ_le hn) hn₂) ?_ rfl
  exact hparameters.mono (Nat.le_refl n₂) (Nat.le_trans hn₄ hhi)

/-! ## Names of members

A name that is qualified is its last part, which is further on than those before it. -/

/-- A name of a member stands from `lo` to before `hi`, or is a keyword. -/
def MemberName.In (ws : Words) (lo hi : Nat) : MemberName → Prop
  | .name n => NameIn ws lo hi (some n)
  | .indexer => lo ≤ hi
  | .operator => lo ≤ hi

theorem MemberName.In.le {ws : Words} {hi : Nat} {name : MemberName} (h : name.In ws lo hi) :
    lo ≤ hi := by
  cases name with
  | name n => exact NameIn.le h
  | indexer => exact h
  | operator => exact h

theorem MemberName.In.mono {ws : Words} {lo' hi hi' : Nat} {name : MemberName}
    (h : name.In ws lo hi) (hlo : lo' ≤ lo) (hhi : hi ≤ hi') : name.In ws lo' hi' := by
  cases name with
  | name n => exact NameIn.mono h hlo hhi
  | indexer => exact Nat.le_trans hlo (Nat.le_trans h hhi)
  | operator => exact Nat.le_trans hlo (Nat.le_trans h hhi)

/-- The last part of the name stands between the first one and the place reached. -/
theorem qualifiedMember_reads {n : Nat} {last : Name}
    (hlast : NameIn input.words n lo (some last)) :
    Reads (qualifiedMember last) input lo fun name hi => name.In input.words n hi := by
  refine Reads.loop (fun (name : MemberName) hi => name.In input.words n hi) hlast ?_
  intro found mid hfound
  have hmid := hfound.le
  refine .lookWithin ?_
  split
  · exact .pure hfound
  · rename_i past hpast
    have hpast : mid ≤ past := by
      split at hpast
      · exact Nat.le_of_lt (input.words.lt_of_typeArgumentsEnd?
          (Option.eq_some_of_filter_eq_some hpast))
      · exact Nat.le_of_eq (Option.some.inj hpast)
    refine .moveTo (.look ?_)
    split
    · refine .bump (name_reads.bind fun name hi hname => .pure ?_)
      exact hname.mono (by omega) (Nat.le_refl hi)
    · exact .bump (.pure (show n ≤ past + 1 by omega))
    · exact .bump (.pure (show n ≤ past + 1 by omega))
    · exact .pure (hfound.mono (Nat.le_refl n) hpast)

theorem memberName_reads : Reads memberName input lo fun name hi => name.In input.words lo hi := by
  refine .isAt (.ite (fun _ => ?_) fun _ => ?_)
  · exact name_reads.bind fun name mid hname => qualifiedMember_reads hname
  · exact name_reads.bind fun name mid hname => .pure hname

/-! ## Members

By the kind of member, where the name stands behind the type. -/

theorem eventDeclaration_places (hg : g.Orderly input) (h : Head) :
    PlacesAfter h (g.eventDeclaration h) input := by
  refine fun lo hh => .bump (.here (expectType_advances.andThen fun _ n hn => ?_))
  refine memberName_reads.bind fun found m hfound => ?_
  extract_lets rest
  have hrest : ∀ name m, NameIn input.words n m (some name) →
      Reads (rest name) input m fun t hi => Placed input.words h.first hi [t] := by
    intro name m hname
    refine .isAt (.ite (fun _ => ?_) fun _ => ?_)
    · refine (accessorList_places hg m).bind fun accessors hi haccessors => ?_
      exact Head.named_reads hh (hname.mono (by omega) (Nat.le_refl m)) haccessors rfl
    · refine (declarators_places hg hn hname).bind fun declared mid hdeclared => ?_
      refine (expect_advances .semi).andThen fun _ hi hhi => ?_
      exact Head.unnamed_reads hh (hdeclared.mono (Nat.le_succ lo) hhi) rfl
  have hmissing : n ≤ m → Reads (expected (.kind .ident) >>= fun _ => missingName >>= rest) input m
      fun t hi => Placed input.words h.first hi [t] := by
    intro hm
    refine .expected (missingName_reads.bind ?_)
    rintro _ _ ⟨rfl, rfl⟩
    exact hrest _ _ (.missing hm (Nat.le_refl _))
  cases found with
  | name name => exact hrest name m hfound
  | indexer => exact hmissing hfound
  | operator => exact hmissing hfound

/-- Parameters and a body, as most members end. -/
theorem parametersAndBody_places {R : Node → Nat → Prop} {f : List Node → Parser Node}
    (hg : g.Orderly input) (hf : ∀ ts hi, Placed input.words lo hi ts → Reads (f ts) input hi R) :
    Reads (do
      let parameters ← g.expectParameters
      let body ← g.memberBody
      f (parameters ++ body)) input lo R := by
  refine (expectParameters_places hg lo).bind fun parameters mid hparameters => ?_
  exact (memberBody_places hg mid).bind fun body hi hbody => hf _ hi (hparameters.append hbody)

theorem conversionOperator_places (hg : g.Orderly input) (h : Head) :
    PlacesAfter h (g.conversionOperator h) input := by
  refine fun lo hh => .bump ((expect_advances .operatorKw).andThen fun _ n hn => ?_)
  refine (eat_advances .checkedKw).andThen fun _ n₁ hn₁ => ?_
  refine expectType_advances.andThen fun _ n₂ hn₂ => parametersAndBody_places hg fun ts hi hts => ?_
  exact Head.unnamed_reads hh (hts.mono (by omega) (Nat.le_refl hi)) rfl

theorem destructor_places (hg : g.Orderly input) (h : Head) :
    PlacesAfter h (g.destructor h) input := by
  refine fun lo hh => .bump (name_reads.bind fun name n hname => ?_)
  refine parametersAndBody_places hg fun ts hi hts => ?_
  exact Head.named_reads hh (hname.mono (Nat.le_succ lo) (Nat.le_refl n)) hts rfl

theorem constructor_places (hg : g.Orderly input) (h : Head) :
    PlacesAfter h (g.constructor h) input := by
  refine fun lo hh => .bump ((parameterList_places hg .method _).bind
    fun parameters n hparameters => ?_)
  extract_lets rest
  have hrest : ∀ call m, Placed input.words n m call →
      Reads (rest call) input m fun t hi => Placed input.words h.first hi [t] := by
    intro call m hcall
    refine (memberBody_places hg m).bind fun body hi hbody => ?_
    have hbelow := hparameters.append (hcall.append hbody)
    exact Head.unnamed_reads hh (hbelow.mono (Nat.le_succ lo) (Nat.le_refl hi)) rfl
  refine .eat (fun _ => .look ?_) fun _ => hrest [] n (.nil (Nat.le_refl n))
  have hcondition : ∀ mid, n ≤ mid → Reads (g.condition >>= rest) input mid
      fun t hi => Placed input.words h.first hi [t] := by
    intro mid hmid
    refine (condition_places hg mid).bind fun call m hcall => hrest call m ?_
    exact hcall.mono hmid (Nat.le_refl m)
  exact .ite (fun _ => .bump (hcondition _ (by omega))) fun _ => hcondition _ (Nat.le_succ n)

theorem method_places (hg : g.Orderly input) {h : Head} {n : Nat} {name : Name}
    (hh : h.Read input.words n) (hname : NameIn input.words n lo (some name)) :
    Reads (g.method h name) input lo fun t hi => Placed input.words h.first hi [t] := by
  refine typeParameters_advances.andThen fun _ n₁ hn₁ => ?_
  refine (expectParameters_places hg n₁).bind fun parameters n₂ hparameters => ?_
  refine constraints_advances.andThen fun _ n₃ hn₃ => ?_
  refine (memberBody_places hg n₃).bind fun body hi hbody => ?_
  have hbelow := (hparameters.mono (Nat.le_refl n₁) hn₃).append hbody
  exact Head.named_reads hh (hname.mono (Nat.le_refl n) hn₁) hbelow rfl

theorem operator_places (hg : g.Orderly input) (h : Head) : PlacesAfter h (g.operator h) input := by
  refine fun lo hh => .bump ((eat_advances .checkedKw).andThen fun _ n hn => ?_)
  refine (skipWhile_advances _).andThen fun _ m hm => parametersAndBody_places hg fun ts
    hi hts => ?_
  exact Head.unnamed_reads hh (hts.mono (by omega) (Nat.le_refl hi)) rfl

theorem indexer_places (hg : g.Orderly input) (h : Head) : PlacesAfter h (g.indexer h) input := by
  refine fun lo hh => .bump (.isAt ?_)
  extract_lets rest
  have hrest : ∀ parameters m, Placed input.words (lo + 1) m parameters →
      Reads (rest parameters) input m fun t hi => Placed input.words h.first hi [t] := by
    intro parameters m hparameters
    refine (propertyBody_places hg m).bind fun body hi hbody => ?_
    exact Head.unnamed_reads hh ((hparameters.append hbody).mono (Nat.le_succ lo)
      (Nat.le_refl hi)) rfl
  refine .ite (fun _ => ?_) fun _ => .expected (hrest [] _ (.nil (Nat.le_refl _)))
  exact (parameterList_places hg .indexer _).bind fun t m ht => hrest [t] m ht

/-- A field has its names in its variables, and the others have one of their own. -/
theorem namedMember_places (hg : g.Orderly input) {h : Head} {typeStart n : Nat} {name : Name}
    (hh : h.Read input.words typeStart) (hn : typeStart ≤ n)
    (hname : NameIn input.words n lo (some name)) :
    Reads (g.namedMember h typeStart name) input lo fun t hi => Placed input.words h.first
      hi [t] := by
  refine .peek ?_
  have hproperty : Reads (g.propertyBody >>= fun ts =>
      h.named .propertyDeclaration name ts) input lo
      fun t hi => Placed input.words h.first hi [t] := by
    refine (propertyBody_places hg lo).bind fun body hi hbody => ?_
    exact Head.named_reads (hh.mono hn) hname hbody rfl
  split
  · exact method_places hg (hh.mono hn) hname
  · exact method_places hg (hh.mono hn) hname
  · exact hproperty
  · exact hproperty
  · refine (declarators_places hg hn hname).bind fun declared mid hdeclared => ?_
    refine (expect_advances .semi).andThen fun _ hi hhi => ?_
    exact Head.unnamed_reads hh (hdeclared.mono (Nat.le_refl _) hhi) rfl

/-- The declaration that a parser reads lies from its head on; if there is none, nothing of it
does. -/
def PlacesAnyAfter (h : Head) (p : Parser (Option Node)) (input : Input) : Prop :=
  ∀ lo, h.Read input.words lo → Reads p input lo fun t hi => Placed input.words h.first hi t.toList

theorem PlacesAfter.some {h : Head} {p : Parser Node} (hp : PlacesAfter h p input) :
    PlacesAnyAfter h (p >>= fun t => pure (some t)) input :=
  fun lo hh => (hp lo hh).bind fun _ _ ht => .pure ht

theorem incomplete_places (h : Head) : PlacesAfter h h.incomplete input :=
  fun _ hh => Head.incomplete_reads hh

theorem typedMember_places (hg : g.Orderly input) (h : Head) :
    PlacesAnyAfter h (g.typedMember h) input := by
  refine fun lo hh => .look (.ite (fun _ => (constructor_places hg h).some lo hh) fun _ => ?_)
  refine (eat_advances .refKw).andThen fun found n hn => ?_
  extract_lets rest
  have hrest : ∀ u n, lo ≤ n → Reads (rest u) input n fun t hi => Placed input.words h.first hi
      t.toList := by
    intro u n hn
    have hh := hh.mono hn
    refine .here (skipType_advances.andThen fun found m hm => .ite (fun _ => .peek ?_) fun _ => ?_)
    · have hhere := hh.mono hm
      split
      · exact (operator_places hg h).some m hhere
      · exact (indexer_places hg h).some m hhere
      · refine memberName_reads.bind fun name k hname => ?_
        have hthere := hhere.mono hname.le
        cases name with
        | indexer => exact (indexer_places hg h).some k hthere
        | operator => exact (operator_places hg h).some k hthere
        | name name => exact (namedMember_places hg hh hm hname).bind fun _ _ ht => .pure ht
      · exact .expected ((incomplete_places h).some m hhere)
    · have hhere := hh.mono hm
      refine .ite (fun _ => .pure (.nil ?_)) fun _ => .expected ((incomplete_places h).some m hhere)
      exact hhere.attributes.le
  refine .ite (fun _ => ?_) fun _ => hrest () n hn
  exact (eat_advances .readonlyKw).andThen fun _ m hm => hrest () m (Nat.le_trans hn hm)

theorem memberDeclaration_places (hg : g.Orderly input) : PlacesAny g.memberDeclaration input := by
  refine fun lo => .here (attributeLists_reads.bind fun attributes n hattributes => ?_)
  refine modifiers_advances.andThen fun m k hk => .peek ?_
  have hh : Head.Read ⟨lo, attributes, m⟩ input.words k :=
    ⟨hattributes.1.mono (Nat.le_refl lo) hk, hattributes.2⟩
  have hlo : lo ≤ k := hh.attributes.le
  split
  · exact (typeDeclaration_places hg rfl _).some k hh
  · exact (typeDeclaration_places hg rfl _).some k hh
  · exact (typeDeclaration_places hg rfl _).some k hh
  · exact (enumDeclaration_places hg _).some k hh
  · exact (delegateDeclaration_places hg _).some k hh
  · refine (hg.namespaceDeclaration k).bind fun t hi ht => .pure ?_
    exact ht.mono hlo (Nat.le_refl hi)
  · exact (eventDeclaration_places hg _).some k hh
  · refine .bump ((typedVariables_places hg _).bind fun declared hi hdeclared => ?_)
    refine Reads.bind ?_ fun _ _ ht => .pure ht
    exact Head.unnamed_reads hh (hdeclared.mono (Nat.le_succ k) (Nat.le_refl hi)) rfl
  · exact (conversionOperator_places hg _).some k hh
  · exact (conversionOperator_places hg _).some k hh
  · exact (destructor_places hg _).some k hh
  · refine .look (.ite (fun _ => ?_) fun _ => typedMember_places hg _ k hh)
    exact (typeDeclaration_places hg rfl _).some k hh
  · refine .here (.ite (fun _ => .pure (.nil hlo)) fun _ => ?_)
    exact .expected ((incomplete_places _).some k hh)

end SharpTokens.Grammar.Nonterminals
