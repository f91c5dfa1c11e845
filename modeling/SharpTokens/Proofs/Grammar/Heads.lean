import SharpTokens.Proofs.Grammar.Types
import SharpTokens.Proofs.Grammar.Units

/-!
# A declaration that is seen ahead is read

Whether a declaration starts at a word is looked up by rules of its own, which are not those by
which a declaration is read. They agree on the first word: it opens attributes, or is taken as a
modifier, or tells the declaration (`Words.starts_of_startsMember`). Once a word is taken there is a
declaration, complete or not. And a reader that finds none has taken no word and noted no fault, so
it is as if it had not been there (`Nonterminals.reads_what_is_seen`).

The look goes past attributes and modifiers to a word that tells what is declared. The parser takes
attributes and modifiers by its own rules and then decides by the word ahead. It is not shown that
they stop at the same word, which need not be so, but that the parser has taken a word by then: it
gives a declaration if it took anything.
-/

namespace SharpTokens.Grammar

/-! ## The first word of a declaration

The words that the look accepts, sorted by what the parser does with them. -/

namespace Words

variable {ws : Words} {n i : Nat}

/-- A word that is taken as a modifier. -/
def IsModifier (ws : Words) (i : Nat) : Prop :=
  (∃ k, ws.kind? i = some k ∧ k.isMemberModifier = true) ∨ ws.isContextualModifier i = true

def declaringKinds : List Kind :=
  [.classKw, .structKw, .interfaceKw, .enumKw, .eventKw, .delegateKw]

/-- A word that tells what is declared. -/
def Declares (ws : Words) (i : Nat) : Prop :=
  ws.isAny i declaringKinds = true ∨ ws.startsRecord i = true

theorem Declares.exists_kind? (h : ws.Declares i) :
    ∃ k ∈ declaringKinds ++ [.ident], ws.kind? i = some k := by
  rcases h with h | h
  · obtain ⟨k, hmem, hk⟩ := isAny_eq_true.1 h
    exact ⟨k, List.mem_append_left _ hmem, hk⟩
  · simp only [startsRecord, isContextual, Bool.and_eq_true] at h
    exact ⟨.ident, by decide, is_eq_true.1 h.1.1⟩

def leadingKinds : List Kind := [
  .modifier, .abstractKw, .readonlyKw, .externKw, .staticKw, .unsafeKw, .newKw, .classKw, .structKw,
    .interfaceKw,
  .enumKw, .eventKw, .delegateKw, .ident]

/-- The look goes on with few kinds of words only. -/
theorem isAny_of_leadsToMember (h : ws.leadsToMember n i = true) :
    ws.isAny i leadingKinds = true := by
  cases n with
  | zero => cases h
  | succ n =>
      unfold leadsToMember at h
      split at h
      case h_15 => cases h
      all_goals exact (isAny_of_kind? (by assumption) _).trans rfl

/-- An identifier that is passed over as a modifier when looking ahead is taken as one. -/
theorem isContextualModifier_of_leadsToMember (hident : ws.kind? i = some .ident)
    (htext : ["partial", "file", "required"].contains (ws.text i) = true)
    (h : ws.leadsToMember n (i + 1) = true) : ws.isContextualModifier i = true := by
  obtain ⟨k, hmem, hk⟩ := isAny_eq_true.1 (isAny_of_leadsToMember h)
  have htext' : ["partial", "async", "required", "file"].contains (ws.text i) = true := by
    rw [List.contains_iff_mem] at htext ⊢
    exact (by decide : ["partial", "file", "required"] ⊆ ["partial", "async", "required", "file"])
      htext
  rw [isContextualModifier, is_eq_true.2 hident, htext', hk, Bool.and_self, Bool.true_and]
  -- whatever leads to a declaration may follow such a modifier
  clear hk
  revert k
  decide

/-- What leads to a declaration is a modifier or tells what is declared. -/
theorem starts_of_leadsToMember (h : ws.leadsToMember n i = true) :
    ws.IsModifier i ∨ ws.Declares i := by
  cases n with
  | zero => cases h
  | succ n =>
      unfold leadsToMember at h
      split at h
      case h_14 hident =>
        split at h
        · next hrecord =>
          have hname : ws.isContextual i "record" = true :=
            Bool.and_eq_true _ _ ▸ ⟨is_eq_true.2 hident, hrecord⟩
          exact .inr (.inr (Bool.and_eq_true _ _ ▸ ⟨hname, h⟩))
        · split at h
          · next htext => exact .inl (.inr (isContextualModifier_of_leadsToMember hident htext h))
          · cases h
      case h_15 => cases h
      all_goals first
        | exact .inl (.inl ⟨_, ‹_›, rfl⟩)
        | exact .inr (.inl ((isAny_of_kind? (by assumption) _).trans rfl))

theorem leadsToMember_of_startsMember (h : ws.startsMember i = true)
    (hopen : ws.is i .lbracket = false) :
    ws.leadsToMember (ws.size - i) i = true := by
  rwa [startsMember, pastAttributes?_eq_self hopen, Option.any_some] at h

/-- **A declaration starts with attributes, a modifier or the word that tells it.** -/
theorem starts_of_startsMember (h : ws.startsMember i = true) :
    ws.is i .lbracket = true ∨ ws.IsModifier i ∨ ws.Declares i := by
  cases hopen : ws.is i .lbracket with
  | true => exact .inl rfl
  | false => exact .inr (starts_of_leadsToMember (leadsToMember_of_startsMember h hopen))

end Words

/-! ## Parsers that take a word

Closed under putting parsers together, as long as one of them takes a word and the others go
forward. -/

section Takes

variable {α β σ : Type} {p : Parser α} {f : α → Parser β} {input : Input} {lo : Nat}

namespace Advances

theorem pure (a : α) : Advances (Pure.pure a) input := fun lo => .pure (Nat.le_refl lo)

theorem bind (hp : Advances p input) (hf : ∀ a, Advances (f a) input) : Advances (p >>= f) input :=
  fun _ => hp.andThen fun a mid hmid => (hf a mid).mono fun _ _ h => Nat.le_trans hmid h

theorem ite {q : Parser α} {c : Prop} [Decidable c] (hp : Advances p input)
    (hq : Advances q input) :
    Advances (if c then p else q) input :=
  fun lo => .ite (fun _ => hp lo) fun _ => hq lo

theorem look {l : Words → Nat → α} (h : ∀ a, Advances (f a) input) :
    Advances (Parser.look l >>= f) input :=
  fun lo => .look (h _ lo)

theorem here {f : Nat → Parser β} (h : ∀ i, Advances (f i) input) :
    Advances (Parser.here >>= f) input :=
  fun lo => .here (h lo lo)

theorem bump : Advances Parser.bump input := by
  rintro _ s rfl
  exact Nat.le_succ s.pos

theorem name : Advances Parser.name input := fun _ => Parser.name_reads.mono fun _ _ h => h.le

theorem node (kind : NodeKind) (first : Nat) (name : Option Name) (modifiers : Modifiers)
    (children : List Node) :
    Advances (Parser.node kind first name modifiers children) input :=
  fun lo => .node (Nat.le_refl lo)

end Advances

theorem PlacesAll.advances {p : Parser (List Node)} (h : PlacesAll p input) : Advances p input :=
  fun lo => (h lo).mono fun _ _ ht => ht.le

theorem Places.advances {p : Parser Node} (h : Places p input) : Advances p input :=
  fun lo => (h lo).mono fun _ _ ht => ht.le

/-- A parser takes a word. -/
def Takes (p : Parser α) (input : Input) : Prop := ∀ lo, Reads p input lo fun _ hi => lo < hi

/-- What follows a word that was taken only goes forward. -/
theorem Takes.afterBump {f : Unit → Parser β} (h : Advances (f ()) input) :
    Takes (Parser.bump >>= f) input :=
  fun lo => .bump (h (lo + 1))

/-- A repetition takes a word if its first step does. -/
theorem Reads.loop_takes {step : σ → Parser (Parser.Step σ)} {found : σ}
    (hstep : ∀ found, Advances (step found) input)
    (hfirst : Reads (step found) input lo fun _ hi => lo < hi) :
    Reads (Parser.loop step found) input lo fun _ hi => lo < hi := by
  have hloop (n : Nat) : Reads (Parser.repeatUpTo step (n + 1) found) input lo fun _ hi =>
      lo < hi := by
    refine hfirst.bind fun r mid hmid => ?_
    cases r with
    | more found =>
        refine Reads.repeatUpTo (I := fun _ hi => lo < hi) ?_ n hmid
        exact fun found mid hmid => (hstep found mid).mono fun _ _ hle =>
          Nat.lt_of_lt_of_le hmid hle
    | done found => exact .pure hmid
  exact fun s hs => hloop _ s hs

end Takes

open Grammar.Parser

variable {input : Input} {lo : Nat}

/-! ### Heads

Attributes start with a bracket, which is taken; so is a modifier. -/

theorem attributeStep_advances (found : Array Node) : Advances (attributeStep found) input := by
  refine .look fun _ => .ite (.here fun _ => skipGroup_advances.bind fun _ => ?_) (.pure _)
  exact .bind (.node _ _ _ _ _) fun _ => .pure _

theorem attributeLists_takes (h : input.words.is lo .lbracket = true) :
    Reads attributeLists input lo fun _ hi => lo < hi := by
  refine (Reads.loop_takes attributeStep_advances
    (.isAt (.ite (fun _ => .here ?_) (absurd h)))).bind
    fun _ _ hlt => .pure hlt
  have hgroup : Reads skipGroup input lo fun _ hi => lo < hi :=
    .look fun s _ => Words.lt_pastGroup (Words.lt_size_of_is h)
  refine hgroup.bind fun _ mid hmid => ?_
  exact Reads.bind (P := fun _ hi => lo < hi) (.node hmid) fun _ _ hlt => .pure hlt

/-- The first step of the loop takes the modifier ahead. -/
theorem modifiers_takes (h : input.words.IsModifier lo) :
    Reads modifiers input lo fun _ hi => lo < hi := by
  refine Reads.loop_takes modifierStep_advances (.peek ?_)
  have htaken {found : Modifiers} : Reads (bump >>= fun _ => pure (Step.more found)) input lo fun _
      hi => lo < hi :=
    .bump (.pure (Nat.lt_succ_self lo))
  split
  · exact htaken
  · exact htaken
  · exact htaken
  · next k _ _ _ hk =>
    refine .look (.ite (fun _ => htaken) fun hnot => absurd (Bool.or_eq_true _ _ ▸ ?_) hnot)
    rcases h with ⟨k', hk', hmodifier⟩ | hmodifier
    · cases hk.symm.trans hk'
      exact .inl hmodifier
    · exact .inr hmodifier
  · next hk =>
    -- there is a word if it is a modifier
    rcases h with ⟨k, hk', -⟩ | hmodifier
    · cases hk.symm.trans hk'
    · simp [Words.isContextualModifier, Words.is, hk] at hmodifier

/-! ### Declarations

Each declaration takes at least its keyword or its name. -/

namespace Nonterminals

variable {g : Nonterminals}

theorem declarator_advances (hg : g.Orderly input) (name : Name) :
    Advances (g.declarator name) input := by
  refine .look fun _ => ?_
  extract_lets finish rest
  have hfinish : ∀ value, Advances (finish value) input := fun value => .node _ _ _ _ value
  have hrest : ∀ u, Advances (rest u) input := by
    refine fun u => (eat_advances .eq).bind fun _ => .ite ?_ (.bind (.pure _) hfinish)
    exact (hg.expression true .statement).advances.bind hfinish
  exact .ite (skipGroup_advances.bind hrest) (hrest ())

theorem declarators_advances (hg : g.Orderly input) (first : Nat) (name : Name) :
    Advances (g.declarators first name) input := by
  refine (declarator_advances hg name).bind fun _ => .bind (.loop fun found => ?_) fun _ =>
    .node _ _ _ _ _
  refine (eat_advances .comma).bind fun _ => .ite (.bind .name fun name => ?_) (.pure _)
  exact (declarator_advances hg name).bind fun _ => .pure _

theorem typeDeclaration_takes (hg : g.Orderly input) (kind : NodeKind) (h : Head) :
    Takes (g.typeDeclaration kind h) input := by
  apply Takes.afterBump
  extract_lets rest
  have hrest : ∀ u, Advances (rest u) input := by
    refine fun u => .bind .name fun name => typeParameters_advances.bind fun _ => .look fun _ => ?_
    extract_lets body
    have hbody : ∀ parameters, Advances (body parameters) input := by
      refine fun parameters => typeHeader_advances.bind fun _ => .look fun k => ?_
      extract_lets finish
      have hfinish : ∀ members, Advances (finish members) input := fun members => .node _ _ _ _ _
      split
      · refine (deeper_places (braced_places (typeItem_places hg))).advances.bind fun members => ?_
        exact (eat_advances .semi).bind fun _ => hfinish members
      · exact .bind .bump fun _ => .bind (.pure _) hfinish
      · exact (expected_advances _).bind fun _ => .bind (.pure _) hfinish
    refine .ite ?_ (.bind (.pure _) hbody)
    exact (parameterList_places hg .method).one.advances.bind hbody
  refine .ite ?_ (hrest ())
  refine (eat_advances .classKw).bind fun _ => .ite (hrest ()) ?_
  exact (eat_advances .structKw).bind fun _ => hrest ()

theorem enumDeclaration_takes (hg : g.Orderly input) (h : Head) :
    Takes (g.enumDeclaration h) input := by
  apply Takes.afterBump
  refine .bind .name fun name => typeHeader_advances.bind fun _ => .look fun _ => .ite ?_ ?_
  · refine (deeper_places (braced_places (enumItem_places hg))).advances.bind fun members => ?_
    exact (eat_advances .semi).bind fun _ => .node _ _ _ _ _
  · exact (expected_advances _).bind fun _ => .node _ _ _ _ _

theorem delegateDeclaration_takes (hg : g.Orderly input) (h : Head) :
    Takes (g.delegateDeclaration h) input := by
  apply Takes.afterBump
  refine expectType_advances.bind fun _ => .bind .name fun name =>
    typeParameters_advances.bind fun _ => ?_
  refine (expectParameters_places hg).advances.bind fun parameters =>
    constraints_advances.bind fun _ => ?_
  exact (expect_advances .semi).bind fun _ => .node _ _ _ _ _

theorem memberName_advances : Advances memberName input :=
  fun _ => memberName_reads.mono fun _ _ h => h.le

theorem eventDeclaration_takes (hg : g.Orderly input) (h : Head) :
    Takes (g.eventDeclaration h) input := by
  apply Takes.afterBump
  refine .here fun typeStart => expectType_advances.bind fun _ => memberName_advances.bind
    fun found => ?_
  extract_lets rest
  have hrest : ∀ name, Advances (rest name) input := by
    refine fun name => .look fun _ => .ite ?_ ?_
    · exact (accessorList_places hg).advances.bind fun _ => .node _ _ _ _ _
    · refine (declarators_advances hg typeStart name).bind fun _ => ?_
      exact (expect_advances .semi).bind fun _ => .node _ _ _ _ _
  have hmissing : Advances (expected (.kind .ident) >>= fun _ => missingName >>= rest) input :=
    (expected_advances _).bind fun _ => .here fun _ => hrest _
  cases found with
  | name name => exact hrest name
  | indexer => exact hmissing
  | operator => exact hmissing

/-- Parameters and a body, as most members end. -/
theorem parametersAndBody_advances (hg : g.Orderly input) {f : List Node → Parser Node}
    (hf : ∀ ts, Advances (f ts) input) :
    Advances (do
      let parameters ← g.expectParameters
      let body ← g.memberBody
      f (parameters ++ body)) input :=
  (expectParameters_places hg).advances.bind fun _ => (memberBody_places hg).advances.bind
    fun _ => hf _

theorem constant_takes (hg : g.Orderly input) (h : Head) :
    Takes (do
      bump
      h.unnamed .fieldDeclaration [← g.typedVariables]) input :=
  .afterBump ((typedVariables_places hg).advances.bind fun _ => .node _ _ _ _ _)

theorem conversionOperator_takes (hg : g.Orderly input) (h : Head) :
    Takes (g.conversionOperator h) input := by
  apply Takes.afterBump
  refine (expect_advances _).bind fun _ => (eat_advances _).bind fun _ =>
    expectType_advances.bind fun _ => ?_
  exact parametersAndBody_advances hg fun _ => .node _ _ _ _ _

theorem destructor_takes (hg : g.Orderly input) (h : Head) : Takes (g.destructor h) input :=
  .afterBump (.bind .name fun _ => parametersAndBody_advances hg fun _ => .node _ _ _ _ _)

theorem constructor_takes (hg : g.Orderly input) (h : Head) : Takes (g.constructor h) input := by
  apply Takes.afterBump
  refine (parameterList_places hg .method).advances.bind fun parameters => ?_
  extract_lets rest
  have hrest : ∀ call, Advances (rest call) input :=
    fun _ => (memberBody_places hg).advances.bind fun _ => .node _ _ _ _ _
  have hcondition : Advances (g.condition >>= rest) input :=
    (condition_places hg).advances.bind hrest
  refine (eat_advances .colon).bind fun _ => .ite (.look fun _ => ?_) (.bind (.pure _) hrest)
  exact .ite (.bind .bump fun _ => hcondition) hcondition

theorem operator_takes (hg : g.Orderly input) (h : Head) : Takes (g.operator h) input := by
  apply Takes.afterBump
  refine (eat_advances .checkedKw).bind fun _ => (skipWhile_advances _).bind fun _ => ?_
  exact parametersAndBody_advances hg fun _ => .node _ _ _ _ _

theorem indexer_takes (hg : g.Orderly input) (h : Head) : Takes (g.indexer h) input := by
  apply Takes.afterBump
  refine .look fun _ => ?_
  extract_lets rest
  have hrest : ∀ parameters, Advances (rest parameters) input :=
    fun _ => (propertyBody_places hg).advances.bind fun _ => .node _ _ _ _ _
  refine .ite ?_ ((expected_advances _).bind fun _ => .bind (.pure _) hrest)
  exact (parameterList_places hg .indexer).one.advances.bind hrest

theorem namedMember_advances (hg : g.Orderly input) (h : Head) (typeStart : Nat) (name : Name) :
    Advances (g.namedMember h typeStart name) input := by
  have hmethod : Advances (g.method h name) input := by
    refine typeParameters_advances.bind fun _ =>
      (expectParameters_places hg).advances.bind fun _ => ?_
    refine constraints_advances.bind fun _ => (memberBody_places hg).advances.bind fun _ => ?_
    exact .node _ _ _ _ _
  have hproperty : Advances (g.propertyBody >>= fun ts =>
      h.named .propertyDeclaration name ts) input :=
    (propertyBody_places hg).advances.bind fun _ => .node _ _ _ _ _
  refine .look fun k => ?_
  split
  · exact hmethod
  · exact hmethod
  · exact hproperty
  · exact hproperty
  · refine (declarators_advances hg typeStart name).bind fun _ => ?_
    exact (expect_advances .semi).bind fun _ => .node _ _ _ _ _

/-! ## What is seen is read

If a word was taken since the start, then a declaration is given, be it incomplete. -/

/-- There is a declaration, and a word from `first` on was taken for it. -/
def ReadSince (first : Nat) (t : Option Node) (hi : Nat) : Prop := t.isSome = true ∧ first < hi

theorem Takes.readSince {p : Parser Node} {first : Nat} (hp : Takes p input) (hle : first ≤ lo) :
    Reads (p >>= fun t => pure (some t)) input lo (ReadSince first) :=
  (hp lo).bind fun _ _ hlt => .pure ⟨rfl, Nat.lt_of_le_of_lt hle hlt⟩

theorem Advances.readSince {p : Parser Node} {first : Nat} (hp : Advances p input)
    (hlt : first < lo) :
    Reads (p >>= fun t => pure (some t)) input lo (ReadSince first) :=
  (hp lo).bind fun _ _ hle => .pure ⟨rfl, Nat.lt_of_lt_of_le hlt hle⟩

/-- With a head that has a word, there is a declaration in every case. -/
theorem typedMember_readSince (hg : g.Orderly input) {h : Head} (hfirst : h.first < lo) :
    Reads (g.typedMember h) input lo (ReadSince h.first) := by
  refine .look (.ite (fun _ => Takes.readSince (constructor_takes hg h) (Nat.le_of_lt hfirst))
    fun _ => ?_)
  refine (eat_advances .refKw).andThen fun found n hn => ?_
  extract_lets rest
  have hrest : ∀ u n, lo ≤ n → Reads (rest u) input n (ReadSince h.first) := by
    intro u n hn
    refine .here (skipType_advances.andThen fun found m hm => .ite (fun _ => .peek ?_) fun _ => ?_)
    · have hle : h.first ≤ m := by omega
      split
      · exact Takes.readSince (operator_takes hg h) hle
      · exact Takes.readSince (indexer_takes hg h) hle
      · refine memberName_advances.andThen fun name k hk => ?_
        cases name with
        | indexer => exact Takes.readSince (indexer_takes hg h) (Nat.le_trans hle hk)
        | operator => exact Takes.readSince (operator_takes hg h) (Nat.le_trans hle hk)
        | name name => exact Advances.readSince (namedMember_advances hg h n name) (by omega)
      · exact .expected (Advances.readSince (.node _ _ _ _ _) (by omega))
    · -- a word was taken before the type, so it is a declaration that breaks off
      refine .ite (fun heq => absurd heq (by omega)) fun _ => ?_
      exact .expected (Advances.readSince (.node _ _ _ _ _) (by omega))
  refine .ite (fun _ => ?_) fun _ => hrest () n hn
  exact (eat_advances .readonlyKw).andThen fun _ m hm => hrest () m (Nat.le_trans hn hm)

/-- **A declaration that is seen ahead is read**, and takes a word. -/
theorem memberDeclaration_readSince (hg : g.Orderly input)
    (h : input.words.startsMember lo = true) :
    Reads g.memberDeclaration input lo (ReadSince lo) := by
  have hstarts := Words.starts_of_startsMember h
  -- attributes or modifiers take the first word, or it is still ahead and tells the declaration
  refine .here (Reads.bind
    (P := fun _ n => lo < n ∨ n = lo ∧ (input.words.IsModifier lo ∨ input.words.Declares lo)) ?_ ?_)
  · rcases hstarts with hopen | hother
    · exact (attributeLists_takes hopen).mono fun _ _ hlt => .inl hlt
    · refine (attributeLists_places.advances lo).mono fun _ n hle => ?_
      exact (Nat.lt_or_eq_of_le hle).imp id fun heq => ⟨heq.symm, hother⟩
  intro attributes n hn
  refine Reads.bind (P := fun _ k => lo < k ∨ k = lo ∧ input.words.Declares lo) ?_ ?_
  · rcases hn with hlt | ⟨rfl, hmodifier | hdeclares⟩
    · exact (modifiers_advances n).mono fun _ _ hle => .inl (Nat.lt_of_lt_of_le hlt hle)
    · exact (modifiers_takes hmodifier).mono fun _ _ hlt => .inl hlt
    · refine (modifiers_advances n).mono fun _ k hle => ?_
      exact (Nat.lt_or_eq_of_le hle).imp id fun heq => ⟨heq.symm, hdeclares⟩
  intro m k hk
  have hle : lo ≤ k := by omega
  refine .peek ?_
  split
  · exact Takes.readSince (typeDeclaration_takes hg _ _) hle
  · exact Takes.readSince (typeDeclaration_takes hg _ _) hle
  · exact Takes.readSince (typeDeclaration_takes hg _ _) hle
  · exact Takes.readSince (enumDeclaration_takes hg _) hle
  · exact Takes.readSince (delegateDeclaration_takes hg _) hle
  · next hkind =>
    -- a namespace alone is not seen, but it is read after attributes
    rcases hk with hlt | ⟨rfl, hdeclares⟩
    · exact Advances.readSince hg.namespaceDeclaration.advances hlt
    · obtain ⟨k', hmem, hk'⟩ := hdeclares.exists_kind?
      cases hkind.symm.trans hk'
      exact absurd hmem (by decide)
  · exact Takes.readSince (eventDeclaration_takes hg _) hle
  · exact Takes.readSince (constant_takes hg _) hle
  · exact Takes.readSince (conversionOperator_takes hg _) hle
  · exact Takes.readSince (conversionOperator_takes hg _) hle
  · exact Takes.readSince (destructor_takes hg _) hle
  · next hkind =>
    refine .look (.ite (fun _ => Takes.readSince (typeDeclaration_takes hg _ _) hle)
      fun hrecord => ?_)
    rcases hk with hlt | ⟨rfl, hdeclares⟩
    · exact typedMember_readSince hg hlt
    · -- the keywords that tell a declaration were all looked for above
      obtain ⟨k', hmem, hk'⟩ := Words.isAny_eq_true.1 (hdeclares.resolve_right hrecord)
      cases hkind.symm.trans hk'
      simp only [Words.declaringKinds, List.mem_cons, List.not_mem_nil, or_false] at hmem
      rcases hmem with rfl | rfl | rfl | rfl | rfl | rfl
      all_goals contradiction
  · next hkind =>
    rcases hk with hlt | ⟨rfl, hdeclares⟩
    · refine .here (.ite (fun heq => absurd heq (Nat.ne_of_gt hlt)) fun _ => ?_)
      exact .expected (Advances.readSince (.node _ _ _ _ _) hlt)
    · obtain ⟨k', -, hk'⟩ := hdeclares.exists_kind?
      cases hkind.symm.trans hk'

end Nonterminals

/-! ## Parsers that leave nothing behind

Where the parser finds no declaration, it has noted nothing and is where it started. So nothing is
lost if a statement is read instead. -/

section Quiet

variable {α β σ : Type} {p : Parser α} {f : α → Parser β} {s : State}

/-- A parser that at most goes to another word: it notes no fault and leaves as much open as there
was. -/
def Quiet (p : Parser α) (input : Input) : Prop :=
  ∀ s, (p input s).2.guard = s.guard ∧ (p input s).2.faults = s.faults

namespace Quiet

theorem eq_moved (h : Quiet p input) : (p input s).2 = { s with pos := (p input s).2.pos } := by
  obtain ⟨hguard, hfaults⟩ := h s
  rw [State.mk.injEq]
  exact ⟨rfl, hguard, hfaults⟩

theorem pure (a : α) : Quiet (Pure.pure a) input := fun _ => ⟨rfl, rfl⟩

theorem look (l : Words → Nat → α) : Quiet (Parser.look l) input := fun _ => ⟨rfl, rfl⟩

theorem here : Quiet Parser.here input := fun _ => ⟨rfl, rfl⟩

theorem moveTo (i : Nat) : Quiet (Parser.moveTo i) input := fun _ => ⟨rfl, rfl⟩

theorem bump : Quiet Parser.bump input := fun _ => ⟨rfl, rfl⟩

theorem bind (hp : Quiet p input) (hf : ∀ a, Quiet (f a) input) : Quiet (p >>= f) input := by
  intro s
  obtain ⟨hguard, hfaults⟩ := hf (p input s).1 (p input s).2
  exact ⟨hguard.trans (hp s).1, hfaults.trans (hp s).2⟩

theorem ite {q : Parser α} {c : Prop} [Decidable c] (hp : Quiet p input) (hq : Quiet q input) :
    Quiet (if c then p else q) input := by
  split
  · exact hp
  · exact hq

theorem loop {step : σ → Parser (Step σ)} (h : ∀ found, Quiet (step found) input) (found : σ) :
    Quiet (Parser.loop step found) input := by
  have hrepeat (n : Nat) (found : σ) : Quiet (Parser.repeatUpTo step n found) input := by
    induction n generalizing found with
    | zero => exact pure found
    | succ n ih =>
        refine (h found).bind fun r => ?_
        cases r with
        | more found => exact ih found
        | done found => exact pure found
  exact fun s => hrepeat _ found s

theorem eat (k : Kind) : Quiet (Parser.eat k) input :=
  (look _).bind fun _ => .ite (bump.bind fun _ => pure _) (pure _)

theorem node (kind : NodeKind) (first : Nat) (name : Option Name) (modifiers : Modifiers)
    (children : List Node) :
    Quiet (Parser.node kind first name modifiers children) input :=
  here.bind fun _ => pure _

end Quiet

theorem attributeLists_quiet : Quiet attributeLists input := by
  refine (Quiet.loop (fun found => ?_) _).bind fun _ => .pure _
  refine (Quiet.look _).bind fun _ => .ite (Quiet.here.bind fun _ => ?_) (.pure _)
  refine ((Quiet.look _).bind fun _ => .moveTo _).bind fun _ => ?_
  exact (Quiet.node _ _ _ _ _).bind fun _ => .pure _

theorem modifiers_quiet : Quiet modifiers input := by
  refine Quiet.loop (fun found => (Quiet.look _).bind fun k => ?_) _
  split
  · exact Quiet.bump.bind fun _ => .pure _
  · exact Quiet.bump.bind fun _ => .pure _
  · exact Quiet.bump.bind fun _ => .pure _
  · exact (Quiet.look _).bind fun _ => .ite (Quiet.bump.bind fun _ => .pure _) (.pure _)
  · exact .pure _

/-- From the word at `lo` on, but otherwise in the state `s`, a parser that finds nothing ends in
`s`. -/
def Withdraws (p : Parser (Option α)) (input : Input) (s : State) (lo : Nat) : Prop :=
  (p input { s with pos := lo }).1 = none → (p input { s with pos := lo }).2 = s

namespace Withdraws

variable {f : α → Parser (Option β)}

theorem bind (hp : Quiet p input) (hf : ∀ a mid, Withdraws (f a) input s mid) :
    Withdraws (p >>= f) input s lo := by
  show (f _ input (p input _).2).1 = none → (f _ input (p input _).2).2 = s
  rw [hp.eq_moved]
  exact hf _ _

theorem ite {p q : Parser (Option α)} {c : Prop} [Decidable c] (hp : c → Withdraws p input s lo)
    (hq : ¬ c → Withdraws q input s lo) : Withdraws (if c then p else q) input s lo := by
  split
  · exact hp ‹_›
  · exact hq ‹_›

theorem here {f : Nat → Parser (Option β)} (h : Withdraws (f lo) input s lo) :
    Withdraws (Parser.here >>= f) input s lo := h

/-- Nothing was found, back at the word that the reader came from. -/
theorem nothing (h : lo = s.pos) : Withdraws (pure none : Parser (Option α)) input s lo := by
  subst h
  exact fun _ => rfl

/-- There is nothing to show where something is always found. -/
theorem of_isSome {p : Parser (Option α)} (h : Reads p input lo fun t _ => t.isSome = true) :
    Withdraws p input s lo := by
  intro hnone
  have hsome := h { s with pos := lo } rfl
  rw [hnone] at hsome
  cases hsome

/-- Where there is no type, none is skipped. -/
theorem skipType {f : Bool → Parser (Option β)} (hyes : ∀ past, Withdraws (f true) input s past)
    (hno : Withdraws (f false) input s lo) : Withdraws (skipType >>= f) input s lo := by
  show (f (Grammar.skipType input _).1 input (Grammar.skipType input _).2).1 = none →
    (f (Grammar.skipType input _).1 input (Grammar.skipType input _).2).2 = s
  rw [skipType_eq]
  split
  · exact hyes _
  · exact hno

end Withdraws

end Quiet

theorem Parser.bind_run {α β : Type} {p : Parser α} {f : α → Parser β} {s : State} :
    (p >>= f) input s = f (p input s).1 input (p input s).2 := rfl

namespace Nonterminals

variable {g : Nonterminals}

/-- It gives nothing only where no word was taken for the head and no type is ahead. -/
theorem typedMember_withdraws {h : Head} {s : State} (hfirst : h.first = s.pos) :
    Withdraws (g.typedMember h) input s lo := by
  refine .bind (.look _) fun _ _ => .ite (fun _ => .of_isSome fun _ _ => rfl) fun _ =>
    .bind (.eat _) fun _ _ => ?_
  extract_lets rest
  have hrest : ∀ u n, Withdraws (rest u) input s n := by
    -- behind a type something is always found, so only the case without one is left
    refine fun u n =>
      .here (.skipType (fun past => .ite (fun _ => .bind (.look _) fun k n' => ?_) ?_) ?_)
    · split
      case h_3 =>
        refine .of_isSome (Reads.bind (P := fun _ _ => True) (fun _ _ => trivial)
          fun name m _ => ?_)
        cases name with
        | _ => exact fun _ _ => rfl
      all_goals exact .of_isSome fun _ _ => rfl
    · exact absurd rfl
    · refine .ite nofun fun _ => .ite (fun heq => .nothing (heq.trans hfirst)) fun _ => ?_
      exact .of_isSome fun _ _ => rfl
  exact .ite (fun _ => .bind (.eat _) fun _ n => hrest () n) fun _ => hrest () _

/-- **Where no declaration is found, nothing has happened.** -/
theorem memberDeclaration_withdraws (s : State) : Withdraws g.memberDeclaration input s s.pos := by
  refine .here (.bind attributeLists_quiet fun attributes _ => .bind modifiers_quiet fun m _ => ?_)
  refine .bind (.look _) fun kind k => ?_
  split
  case h_12 =>
    refine .bind (.look _) fun _ _ => .ite (fun _ => .of_isSome fun _ _ => rfl) fun _ => ?_
    exact typedMember_withdraws rfl
  case h_13 => exact .here (.ite (fun heq => .nothing heq) fun _ => .of_isSome fun _ _ => rfl)
  all_goals exact .of_isSome fun _ _ => rfl

/-! ## Declarations among statements

A statement that no keyword tells starts with the look, and what the look sees is read as a
member. -/

/-- A statement that is seen as a member is that member. -/
theorem otherStatement_eq {s next : State} {t : Node} (h : input.words.startsMember s.pos = true)
    (hmember : g.member input s = (some t, next)) (first : Nat) :
    g.otherStatement first input s = (t, next) := by
  rw [otherStatement, bind_run]
  show (if input.words.startsMember s.pos = true then _
      else g.declarationOrExpression first : Parser Node) input s = _
  rw [if_pos h, bind_run, hmember]
  rfl

/-- A statement that starts with a declaration and not with its attributes is read as one. -/
theorem statementBody_eq {s : State} (h : input.words.startsMember s.pos = true)
    (hopen : input.words.is s.pos .lbracket = false) :
    g.statementBody input s = g.otherStatement s.pos input s := by
  have hleads := Words.leadsToMember_of_startsMember h hopen
  obtain ⟨k, hmem, hk⟩ := Words.isAny_eq_true.1 (Words.isAny_of_leadsToMember hleads)
  have hpeek : (peek : Parser (Option Kind)) input s = (some k, s) := by
    rw [← hk]
    rfl
  rw [statementBody, bind_run]
  show (peek >>= _) input s = _
  rw [bind_run, hpeek]
  by_cases hunsafe : k = .unsafeKw
  · -- the word before a block of its own kind, unless a declaration follows
    subst hunsafe
    have hbrace : input.words.is (s.pos + 1) .lbrace = false := by
      cases hn : input.words.size - s.pos with
      | zero =>
          rw [hn] at hleads
          cases hleads
      | succ n =>
          rw [hn, Words.leadsToMember, hk] at hleads
          exact Words.is_eq_false_of_isAny (Words.isAny_of_leadsToMember hleads) (by decide)
    show (if (true && input.words.is (s.pos + 1) .lbrace) = true then _
        else g.otherStatement s.pos) input s = _
    rw [hbrace]
    rfl
  · -- none of the other kinds starts a statement of its own
    simp only [Words.leadingKinds, List.mem_cons, List.not_mem_nil, or_false, hunsafe,
      false_or] at hmem
    rcases hmem with rfl | rfl | rfl | rfl | rfl | rfl | rfl | rfl | rfl | rfl | rfl | rfl | rfl
    all_goals rfl

/-- **What is seen ahead as a declaration is read as one.** Wherever one is seen, there is a
declaration and a word is taken for it, so a statement that starts with one is that declaration. And
where none is found the reader is left as it was: at the same word, with the same constructs open
and the same faults. This is so however often the grammar is unfolded, as long as it is at all. -/
theorem reads_what_is_seen (n : Nat) (input : Input) (s : State) :
    (input.words.startsMember s.pos = true → ∃ t next, (unfolded (n + 1)).member input s =
      (some t, next) ∧
      s.pos < next.pos ∧
      (∀ first, (unfolded (n + 1)).otherStatement first input s = (t, next)) ∧
      (input.words.is s.pos .lbracket = false → (unfolded (n + 2)).statement input s = (t, next))) ∧
    ∀ next, (unfolded (n + 1)).member input s = (none, next) → next = s := by
  constructor
  · intro h
    obtain ⟨hsome, hlt⟩ := memberDeclaration_readSince (unfolded_orderly input n) h s rfl
    obtain ⟨t, ht⟩ := Option.isSome_iff_exists.1 hsome
    have hmember : (unfolded (n + 1)).member input s =
        (some t, ((unfolded n).memberDeclaration input s).2) :=
      Prod.ext ht rfl
    refine ⟨t, _, hmember, hlt, otherStatement_eq h hmember, fun hopen => ?_⟩
    exact (statementBody_eq h hopen).trans (otherStatement_eq h hmember s.pos)
  · intro next h
    have hwithdraws : Withdraws (unfolded n).memberDeclaration input s s.pos :=
      memberDeclaration_withdraws s
    exact (congrArg Prod.snd h).symm.trans (hwithdraws (congrArg Prod.fst h))

/-- A class after an identifier that is a modifier is seen and read. A semicolon is no declaration
and stays ahead. -/
theorem reads_what_is_seen_partial :
    Words.startsMember #[⟨.ident, "partial", false⟩, ⟨.classKw, "class", false⟩,
      ⟨.ident, "C", false⟩] 0 = true ∧
    (∃ t next, (unfolded 1).member
        ⟨#[⟨.ident, "partial", false⟩, ⟨.classKw, "class", false⟩, ⟨.ident, "C", false⟩],
          1⟩ .initial =
      (some t, next) ∧ 0 < next.pos) ∧
    ((unfolded 1).member ⟨#[⟨.semi, ";", false⟩], 1⟩ .initial).1 = none ∧
    ((unfolded 1).member ⟨#[⟨.semi, ";", false⟩], 1⟩ .initial).2 = .initial := by
  obtain ⟨hfound, -⟩ := reads_what_is_seen 0
    ⟨#[⟨.ident, "partial", false⟩, ⟨.classKw, "class", false⟩, ⟨.ident, "C", false⟩], 1⟩ .initial
  obtain ⟨-, hwithdraws⟩ := reads_what_is_seen 0 ⟨#[⟨.semi, ";", false⟩], 1⟩ .initial
  obtain ⟨t, next, hmember, hlt, -⟩ := hfound (by decide)
  exact ⟨by decide, ⟨t, next, hmember, hlt⟩, rfl, hwithdraws _ rfl⟩

end Nonterminals

end SharpTokens.Grammar
