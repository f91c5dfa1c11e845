import SharpTokens.Grammar.Unit
import SharpTokens.Proofs.Grammar.Run.Outcome
import SharpTokens.Proofs.Program.Types

/-!
# Phrases of plain programs

What the parsers give on the parts of a declaration that is spelled ahead: modifiers, lists of
names, parameters and bodies. None of them notes a fault.

Some identifiers mean something else in some places, such as `partial` before a class. A program has
none of them (`Plain`), so that an identifier is always a name.
-/

namespace SharpTokens.Program

open Grammar Grammar.Parser

variable {ws : Words} {limit d lo hi i j : Nat} {g : Nonterminals} {k : Kind}

/-- No word is one that the grammar takes for something else in some places. -/
def Plain (ws : Words) : Prop := ∀ i, ws.is i .ident = true → ws.text i ∉ contextualWords

namespace Plain

/-- No word is taken for one of these. -/
theorem isContextual (h : Plain ws) {text : String} (htext : text ∈ contextualWords) (i : Nat) :
    ws.isContextual i text = false := by
  rw [Words.isContextual, Bool.and_eq_false_iff]
  by_cases hi : ws.is i .ident = true
  · right
    rw [beq_eq_false_iff_ne]
    rintro rfl
    exact h i hi htext
  · left
    exact Bool.eq_false_iff.2 hi

theorem isContextualModifier (h : Plain ws) (i : Nat) : ws.isContextualModifier i = false := by
  rw [Words.isContextualModifier]
  by_cases hi : ws.is i .ident = true
  · have htext : ["partial", "async", "required", "file"].contains (ws.text i) = false := by
      rw [List.contains_eq_mem]
      have hsub : ∀ text ∈ ["partial", "async", "required", "file"],
          text ∈ contextualWords := by decide
      exact decide_eq_false fun hmem => h i hi (hsub _ hmem)
    rw [htext, Bool.and_false, Bool.false_and]
  · rw [Bool.eq_false_iff.2 hi, Bool.false_and, Bool.false_and]

theorem startsRecord (h : Plain ws) (i : Nat) : ws.startsRecord i = false := by
  rw [Words.startsRecord, h.isContextual (by decide), Bool.false_and]

theorem isScoped (h : Plain ws) (i : Nat) : ws.isScoped i = false := by
  rw [Words.isScoped, h.isContextual (by decide), Bool.false_and]

end Plain

/-! ## Words

What single words do, given the kind of the word ahead. -/

theorem peek_gives (h : ws.kind? lo = some k) : Gives peek ⟨ws, limit⟩ d lo (some k) lo #[] := by
  have hlook : Gives peek ⟨ws, limit⟩ d lo (ws.kind? lo) lo #[] := Gives.look _
  rwa [h] at hlook

theorem isAt_gives (k' : Kind) (h : ws.kind? lo = some k) :
    Gives (isAt k') ⟨ws, limit⟩ d lo (k == k') lo #[] := by
  have hlook : Gives (isAt k') ⟨ws, limit⟩ d lo (ws.is lo k') lo #[] := Gives.look _
  rwa [Words.is_of_kind? h] at hlook

theorem eat_gives (h : ws.kind? lo = some k) : Gives (eat k) ⟨ws, limit⟩ d lo true (lo + 1) #[] :=
  Gives.eat (Words.is_eq_true.2 h)

theorem eat_other_gives {k' : Kind} (h : ws.is lo k' = false) :
    Gives (eat k') ⟨ws, limit⟩ d lo false lo #[] :=
  Gives.eat_other h

theorem expect_gives (h : ws.kind? lo = some k) :
    Gives (expect k) ⟨ws, limit⟩ d lo true (lo + 1) #[] :=
  (eat_gives h).andThen Gives.pure

theorem name_gives {text : String} (h : ws.kind? lo = some .ident ∧ ws.text lo = text) :
    Gives name ⟨ws, limit⟩ d lo (.present lo text) (lo + 1) #[] := by
  obtain ⟨hkind, rfl⟩ := h
  apply Gives.here.andThen
  apply (isAt_gives .ident hkind).andThen
  apply Gives.bump.andThen
  exact (Gives.look _).andThen Gives.pure

/-- A repetition whose first step is done. -/
theorem loop_gives {σ : Type} {step : σ → Parser (Step σ)} {found r : σ}
    (h : Gives (step found) ⟨ws, limit⟩ d lo (.done r) hi #[]) (hlo : lo ≤ ws.size) :
    Gives (loop step found) ⟨ws, limit⟩ d lo r hi #[] :=
  (Repeats.done h).loop hlo

theorem appendList_cons {α : Type} (found : Array α) (a : α) (as : List α) :
    found ++ (a :: as) = found ++ [a] ++ as := rfl

/-! ## Modifiers and types

Modifiers add up one by one, and the loop stops at what is none. -/

theorem attributeLists_gives (h : ws.kind? lo = some k) (hk : k ≠ .lbracket) :
    Gives attributeLists ⟨ws, limit⟩ d lo [] lo #[] := by
  refine (loop_gives (r := #[]) ?_ (Nat.le_of_lt (Words.lt_size_of_kind? h))).andThen Gives.pure
  apply (isAt_gives .lbracket h).andThen
  rw [beq_false_of_ne hk]
  exact Gives.pure

/-- What was found of modifiers, and one more. -/
def withModifier (found : Modifiers) : Modifier → Modifiers
  | .static => { found with isStatic := true }
  | .readonly => { found with isReadonly := true }
  | .abstract => { found with isAbstract := true }
  | .access _ | .new | .unsafeCode => found

theorem modifierStep_gives {m : Modifier} (h : ws.kind? lo = some m.word.kind) (found : Modifiers) :
    Gives (modifierStep found) ⟨ws, limit⟩ d lo (.more (withModifier found m)) (lo + 1) #[] := by
  apply (peek_gives h).andThen
  cases m with
  | static => exact Gives.bump.andThen Gives.pure
  | readonly => exact Gives.bump.andThen Gives.pure
  | abstract => exact Gives.bump.andThen Gives.pure
  | access text => exact (Gives.look _).andThen (Gives.bump.andThen Gives.pure)
  | new => exact (Gives.look _).andThen (Gives.bump.andThen Gives.pure)
  | unsafeCode => exact (Gives.look _).andThen (Gives.bump.andThen Gives.pure)

/-- What stands after the modifiers of a type or member. -/
def afterModifiers : List Kind :=
  [.classKw, .structKw, .interfaceKw, .enumKw, .ident, .predefinedType, .voidKw]

/-- What stands behind modifiers is none. -/
theorem modifierStep_done_gives (hplain : Plain ws) (h : ws.isAny lo afterModifiers = true)
    (found : Modifiers) :
    Gives (modifierStep found) ⟨ws, limit⟩ d lo (.done found) lo #[] := by
  obtain ⟨k, hk, hkind⟩ := Words.isAny_eq_true.1 h
  apply (peek_gives hkind).andThen
  have hlook : Gives (look Words.isContextualModifier) ⟨ws, limit⟩ d lo false lo #[] :=
    hplain.isContextualModifier lo ▸ Gives.look _
  simp only [afterModifiers, List.mem_cons, List.not_mem_nil, or_false] at hk
  rcases hk with rfl | rfl | rfl | rfl | rfl | rfl | rfl <;> exact hlook.andThen Gives.pure

/-- Modifiers add up to which of them there are. -/
theorem repeats_modifiers (hplain : Plain ws) {ms : List Modifier}
    (h : Spells ws lo (ms.map Modifier.word) hi) (hhi : ws.isAny hi afterModifiers = true)
    (found : Modifiers) :
    Repeats modifierStep ⟨ws, limit⟩ d found lo
      ⟨found.isStatic || (effective ms).isStatic, found.isReadonly || (effective ms).isReadonly,
        found.isAbstract || (effective ms).isAbstract⟩ hi #[] := by
  induction ms generalizing lo found with
  | nil =>
      obtain rfl : lo = hi := h
      simp only [effective, List.not_mem_nil, decide_false, Bool.or_false]
      exact .done (modifierStep_done_gives hplain hhi found)
  | cons m ms ih =>
      have hrest := ih h.2 (withModifier found m)
      have hstep := Repeats.andThen (modifierStep_gives h.1.1 found) (Nat.lt_succ_self lo)
        (Words.lt_size_of_kind? h.1.1) hrest
      cases m <;> simpa [withModifier, effective] using hstep

/-- All modifiers are taken, and what they say together is found. -/
theorem modifiers_gives (hplain : Plain ws) {ms : List Modifier}
    (h : Spells ws lo (ms.map Modifier.word) hi) (hhi : ws.isAny hi afterModifiers = true) :
    Gives modifiers ⟨ws, limit⟩ d lo (effective ms) hi #[] := by
  have hlo : lo ≤ ws.size := by
    have := h.eq_add
    have := Words.lt_size_of_isAny hhi
    omega
  have hrepeats : Repeats modifierStep ⟨ws, limit⟩ d .none lo (effective ms) hi #[] :=
    repeats_modifiers hplain h hhi .none
  exact hrepeats.loop hlo

/-- A type that nests within the limit is passed over. -/
theorem skipType_gives {t : TypeTerm .type} (h : Spells ws lo t.spell hi) (hhi : Closes ws hi .type)
    (hlimit : t.nesting ≤ limit) : Gives skipType ⟨ws, limit⟩ d lo true hi #[] := by
  have hlook : Gives (lookWithin Words.typeEnd?) ⟨ws, limit⟩ d lo (some hi) lo #[] :=
    t.typeEnd?_eq h hhi hlimit ▸ Gives.lookWithin _
  exact hlook.andThen ((Gives.moveTo hi).andThen Gives.pure)

theorem typeParameters_gives (h : ws.is lo .lt = false) :
    Gives typeParameters ⟨ws, limit⟩ d lo () lo #[] := by
  have hlook : Gives (isAt .lt) ⟨ws, limit⟩ d lo false lo #[] := h ▸ Gives.look _
  exact hlook.andThen Gives.pure

theorem constraints_gives (hplain : Plain ws) (hlo : lo ≤ ws.size) :
    Gives constraints ⟨ws, limit⟩ d lo () lo #[] := by
  have hwhere : ws.isContextual lo "where" = false := hplain.isContextual (by decide) lo
  have hlook : Gives (isAtContextual "where") ⟨ws, limit⟩ d lo false lo #[] := hwhere ▸ Gives.look _
  exact loop_gives (hlook.andThen Gives.pure) hlo

theorem typeHeader_gives (h : ws.kind? lo = some .lbrace) :
    Gives typeHeader ⟨ws, limit⟩ d lo () lo #[] := by
  refine loop_gives ?_ (Nat.le_of_lt (Words.lt_size_of_kind? h))
  apply (Gives.look _).andThen
  rw [h]
  exact Gives.pure

/-! ## Parameters

A type and a name each, with commas between them. -/

/-- A declared name closes the type before it. -/
theorem closes_of_ident (h : ws.kind? i = some .ident) : Closes ws i .type :=
  Words.isAny_eq_true.2 ⟨_, by decide, h⟩

theorem noParameterModifier_gives (hplain : Plain ws) {t : TypeTerm .type}
    (h : Spells ws lo t.spell hi) (hhi : Closes ws hi .type) :
    Gives (skipWhile Nonterminals.isParameterModifier) ⟨ws, limit⟩ d lo () lo #[] := by
  obtain ⟨k, hk, hkind⟩ := Words.isAny_eq_true.1 (t.starts h hhi).1
  refine loop_gives ?_ (Nat.le_of_lt (Words.lt_size_of_kind? hkind))
  have hnot : Nonterminals.isParameterModifier ws lo k = false := by
    rw [Nonterminals.isParameterModifier, hplain.isScoped, Bool.or_false]
    simp only [List.mem_cons, List.not_mem_nil, or_false] at hk
    rcases hk with rfl | rfl | rfl <;> rfl
  apply (Gives.look _).andThen
  rw [hkind, Option.filter_some, if_neg (by rw [hnot]; exact Bool.false_ne_true)]
  exact Gives.pure

/-- A parameter is read as its node. -/
theorem parameter_gives (hplain : Plain ws) {p : Parameter} (h : Spells ws lo p.spell hi)
    (hhi : ws.is hi .eq = false) (hlimit : p.type.nesting ≤ limit) :
    Gives (g.parameter .method) ⟨ws, limit⟩ d lo
      (named .parameter lo hi (lo + p.type.spell.length) p.name .none []) hi #[] := by
  obtain ⟨mid, htype, hname, rfl⟩ := spells_append.1 h
  have hmid := closes_of_ident hname.1
  obtain rfl := htype.eq_add
  obtain ⟨k, hk, hkind⟩ := Words.isAny_eq_true.1 (p.type.starts htype hmid).1
  apply Gives.here.andThen
  apply (attributeLists_gives hkind (by rintro rfl; revert hk; decide)).andThen
  apply (noParameterModifier_gives hplain htype hmid).andThen
  apply (Gives.look _).andThen
  apply ((skipType_gives htype hmid hlimit).andThen (name_gives hname)).andThen
  apply (eat_other_gives hhi).andThen
  apply Gives.pure.andThen
  exact Gives.node _ _ _ _ _

theorem parameterStep_gives (hplain : Plain ws) {p : Parameter} (h : Spells ws lo p.spell hi)
    (hhi : ws.is hi .eq = false) (hlimit : p.type.nesting ≤ limit) (found : Array Node) :
    Gives (g.parameterStep .method found) ⟨ws, limit⟩ d lo
      (.more (found ++ [named .parameter lo hi (lo + p.type.spell.length) p.name .none []]))
      hi #[] := by
  obtain ⟨mid, htype, hname, -⟩ := spells_append.1 h
  obtain ⟨k, hk, hkind⟩ := Words.isAny_eq_true.1 (p.type.starts htype (closes_of_ident hname.1)).1
  have hlt : lo < hi := by
    have := h.eq_add
    simp only [Parameter.spell, List.length_append, List.length_singleton] at this
    omega
  have hread : Gives (orUnexpected (g.parameter .method)) ⟨ws, limit⟩ d lo
      [named .parameter lo hi (lo + p.type.spell.length) p.name .none []] hi #[] := by
    apply Gives.here.andThen
    apply (parameter_gives hplain h hhi hlimit).andThen
    apply Gives.here.andThen
    rw [if_neg (Nat.ne_of_gt hlt)]
    exact Gives.pure
  apply (peek_gives hkind).andThen
  simp only [List.mem_cons, List.not_mem_nil, or_false] at hk
  rcases hk with rfl | rfl | rfl <;> exact hread.andThen Gives.pure

theorem parameterStep_comma_gives (h : ws.kind? lo = some .comma) (found : Array Node) :
    Gives (g.parameterStep .method found) ⟨ws, limit⟩ d lo (.more found) (lo + 1) #[] :=
  (peek_gives h).andThen (Gives.bump.andThen Gives.pure)

theorem parameterStep_close_gives (h : ws.kind? lo = some .rparen) (found : Array Node) :
    Gives (g.parameterStep .method found) ⟨ws, limit⟩ d lo (.done found) (lo + 1) #[] :=
  (peek_gives h).andThen (Gives.bump.andThen Gives.pure)

/-- All parameters are read, each behind a comma but the first, up to the closing parenthesis. -/
theorem repeats_parameters (hplain : Plain ws) {ps : List Parameter}
    (h : Spells ws lo (parameterWords ps) hi) (hhi : ws.kind? hi = some .rparen)
    (hlimit : ∀ p ∈ ps, p.type.nesting ≤ limit) (found : Array Node) :
    Repeats (g.parameterStep .method) ⟨ws, limit⟩ d found lo (found ++ parameterTrees lo ps)
      (hi + 1) #[] := by
  have hclose : ∀ found, Repeats (g.parameterStep .method) ⟨ws, limit⟩ d found hi found
      (hi + 1) #[] :=
    fun found => .done (parameterStep_close_gives hhi found)
  have hlt := Words.lt_size_of_kind? hhi
  fun_induction parameterWords ps generalizing lo found with
  | case1 =>
      obtain rfl : lo = hi := h
      simpa [parameterTrees] using hclose found
  | case2 p =>
      have hlength := h.eq_add
      have heq : ws.is hi .eq = false := by
        rw [Words.is_of_kind? hhi]
        rfl
      have hstep := parameterStep_gives (g := g) (d := d) hplain h heq (hlimit p (by simp)) found
      simp only [parameterTrees, hlength]
      refine Repeats.andThen hstep ?_ (Nat.le_of_lt hlt) (hclose _)
      simp only [Parameter.spell, List.length_append, List.length_singleton] at hlength
      omega
  | case3 p q ps ih =>
      obtain ⟨mid, hp, ⟨hcomma, -⟩, hrest⟩ := spells_append.1 h
      have hlength := hp.eq_add
      have hmid := Words.lt_size_of_kind? hcomma
      have heq : ws.is mid .eq = false := by
        rw [Words.is_of_kind? hcomma]
        rfl
      have hstep := parameterStep_gives (g := g) (d := d) hplain hp heq (hlimit p (by simp)) found
      have hrest := ih hrest fun p hp => hlimit p (List.mem_cons_of_mem _ hp)
      rw [parameterTrees, hlength, appendList_cons]
      -- a step for the parameter and one for the comma behind it
      refine Repeats.andThen hstep ?_ (Nat.le_of_lt hmid) ?_
      · simp only [Parameter.spell, List.length_append, List.length_singleton] at hlength
        omega
      · exact Repeats.andThen (parameterStep_comma_gives hcomma _) (Nat.lt_succ_self mid)
          hmid (hrest _)

theorem expectParameters_gives (hplain : Plain ws) {ps : List Parameter}
    (hopen : ws.kind? lo = some .lparen) (h : Spells ws (lo + 1) (parameterWords ps) hi)
    (hclose : ws.kind? hi = some .rparen) (hlimit : ∀ p ∈ ps, p.type.nesting ≤ limit) :
    Gives g.expectParameters ⟨ws, limit⟩ d lo
      [unnamed .parameterList lo (hi + 1) .none (parameterTrees (lo + 1) ps)] (hi + 1) #[] := by
  apply (isAt_gives .lparen hopen).andThen
  refine Gives.andThen (Gives.here.andThen ?_) Gives.pure
  apply Gives.bump.andThen
  apply ((repeats_parameters hplain h hclose hlimit #[]).loop
    (Words.lt_size_of_kind? hopen)).andThen
  rw [Array.toList_appendList]
  exact Gives.node _ _ _ _ _

/-! ## Variables

Names with commas between them, up to the semicolon. -/

theorem declarator_gives {w : Nat} {name : String} (h : ws.isAny lo [.comma, .semi] = true)
    (hlo : w + 1 = lo) :
    Gives (g.declarator (.present w name)) ⟨ws, limit⟩ d lo (leaf .variableDeclarator w name)
      lo #[] := by
  subst hlo
  have hbracket : Gives (isAt .lbracket) ⟨ws, limit⟩ d (w + 1) false (w + 1) #[] :=
    Words.is_eq_false_of_isAny (k := .lbracket) h (by decide) ▸ Gives.look _
  apply hbracket.andThen
  apply (eat_other_gives (Words.is_eq_false_of_isAny h (by decide))).andThen
  apply Gives.pure.andThen
  exact Gives.node _ _ _ _ _

/-- Where names with marks between them end, a mark or what follows them stands after each. -/
theorem isAny_of_divided {divider : Kind} {word : String → Spelled} {names : List String}
    (h : Spells ws lo (names.flatMap fun name => [mark divider, word name]) hi)
    (hhi : ws.kind? hi = some k) :
    ws.isAny lo [divider, k] = true := by
  cases names with
  | nil =>
      obtain rfl : lo = hi := h
      exact Words.isAny_eq_true.2 ⟨k, by simp, hhi⟩
  | cons name names => exact Words.isAny_eq_true.2 ⟨divider, by simp, h.1.1⟩

/-- All names behind the first are read, up to the semicolon. -/
theorem repeats_declarators {m : Modifiers} {names : List String}
    (h : Spells ws lo (names.flatMap fun name =>
      [mark .comma, declared .variableDeclarator m name]) hi)
    (hhi : ws.kind? hi = some .semi) (found : Array Node) :
    Repeats g.declaratorStep ⟨ws, limit⟩ d found lo
      (found ++ leaves .variableDeclarator (lo + 1) names) hi #[] := by
  induction names generalizing lo found with
  | nil =>
      obtain rfl : lo = hi := h
      have hcomma : ws.is lo .comma = false := by
        rw [Words.is_of_kind? hhi]
        rfl
      exact .done ((eat_other_gives hcomma).andThen Gives.pure)
  | cons name names ih =>
      obtain ⟨⟨hcomma, -⟩, hname, hrest⟩ := h
      rw [leaves, appendList_cons]
      refine Repeats.andThen ?_ (by omega : lo < lo + 2) (Words.lt_size_of_kind? hname.1)
        (ih hrest _)
      apply (eat_gives hcomma).andThen
      apply (name_gives hname).andThen
      exact (declarator_gives (isAny_of_divided hrest hhi) rfl).andThen Gives.pure

theorem declarators_gives {m : Modifiers} {name : String} {names : List String} (first : Nat)
    (h : Spells ws (lo + 1) (names.flatMap fun name =>
      [mark .comma, declared .variableDeclarator m name]) hi)
    (hhi : ws.kind? hi = some .semi) :
    Gives (g.declarators first (.present lo name)) ⟨ws, limit⟩ d (lo + 1)
      (unnamed .variableDeclaration first hi .none (leaves .variableDeclarator lo (name :: names)))
      hi #[] := by
  have hlo : lo + 1 ≤ ws.size := by
    have := h.eq_add
    have := Words.lt_size_of_kind? hhi
    omega
  apply (declarator_gives (isAny_of_divided h hhi) rfl).andThen
  apply ((repeats_declarators h hhi _).loop hlo).andThen
  rw [Array.toList_appendList]
  exact Gives.node _ _ _ _ _

/-! ## Braces

There is room for one more level, so nothing is refused. -/

variable {item : Kind → Parser (List Node)} {ts : List Node}

theorem bracedStep_gives (h : ws.kind? lo = some k) (hk : k ≠ .rbrace)
    (hitem : Gives (item k) ⟨ws, limit⟩ d lo ts hi #[]) (found : Array Node) :
    Gives (bracedStep item found) ⟨ws, limit⟩ d lo (.more (found ++ ts)) hi #[] := by
  apply (peek_gives h).andThen
  cases k with
  | rbrace => exact absurd rfl hk
  | _ => exact hitem.andThen Gives.pure

theorem bracedStep_close_gives (h : ws.kind? lo = some .rbrace) (found : Array Node) :
    Gives (bracedStep item found) ⟨ws, limit⟩ d lo (.done found) (lo + 1) #[] :=
  (peek_gives h).andThen (Gives.bump.andThen Gives.pure)

/-- Items are read up to the closing brace. -/
theorem braced_gives {r : Array Node} (hopen : ws.kind? lo = some .lbrace)
    (h : Repeats (bracedStep item) ⟨ws, limit⟩ d #[] (lo + 1) r hi #[]) (hr : r.toList = ts) :
    Gives (braced item) ⟨ws, limit⟩ d lo ts hi #[] := by
  subst hr
  apply Gives.bump.andThen
  exact (h.loop (Words.lt_size_of_kind? hopen)).andThen Gives.pure

def Room (limit d : Nat) : Prop := d < limit ∧ d < Guard.unlimited

theorem block_gives (h : Spells ws lo [mark .lbrace, mark .rbrace] hi) (hroom : Room limit d) :
    Gives g.block ⟨ws, limit⟩ d lo (unnamed .block lo hi .none []) hi #[] := by
  obtain ⟨⟨hopen, -⟩, ⟨hclose, -⟩, rfl⟩ := h
  apply Gives.deeperNode hroom.1 hroom.2
  apply Gives.here.andThen
  apply (braced_gives hopen (.done (bracedStep_close_gives hclose _)) rfl).andThen
  exact Gives.node _ _ _ _ _

theorem memberBody_gives {hasBody : Bool} (h : Spells ws lo (bodyWords hasBody) hi)
    (hroom : hasBody = true → Room limit d) :
    Gives g.memberBody ⟨ws, limit⟩ d lo (bodyTrees lo hasBody) hi #[] := by
  cases hasBody with
  | true =>
      obtain rfl : lo + 2 = hi := h.eq_add
      apply (peek_gives h.1.1).andThen
      exact (block_gives h (hroom rfl)).andThen Gives.pure
  | false =>
      obtain ⟨⟨hsemi, -⟩, rfl⟩ := h
      exact (peek_gives hsemi).andThen (Gives.bump.andThen Gives.pure)

/-! ## Properties

The two accessors, each with its semicolon. -/

theorem accessorItem_gives {name : String} (h : Spells ws lo [used name, mark .semi] hi) :
    Gives (g.accessorItem .ident) ⟨ws, limit⟩ d lo [] hi #[] := by
  obtain ⟨-, ⟨hsemi, -⟩, rfl⟩ := h
  apply Gives.bump.andThen
  exact (peek_gives hsemi).andThen (Gives.bump.andThen Gives.pure)

theorem propertyBody_gives (h : Spells ws lo accessorWords hi) (hroom : Room limit d)
    (hhi : ws.is hi .eq = false) :
    Gives g.propertyBody ⟨ws, limit⟩ d lo [] hi #[] := by
  obtain ⟨⟨hopen, -⟩, hget, hsemi, hset, hsemi', ⟨hclose, -⟩, rfl⟩ := h
  have hbody : Repeats (bracedStep g.accessorItem) ⟨ws, limit⟩ (d + 1) #[] (lo + 1) #[]
      (lo + 6) #[] := by
    refine Repeats.andThen (bracedStep_gives hget.1 (by decide)
      (accessorItem_gives ⟨hget, hsemi, rfl⟩) _) ?_
      (Nat.le_of_lt (Words.lt_size_of_kind? hset.1)) ?_
    · omega
    refine Repeats.andThen (bracedStep_gives hset.1 (by decide)
      (accessorItem_gives ⟨hset, hsemi', rfl⟩) _) ?_
      (Nat.le_of_lt (Words.lt_size_of_kind? hclose)) ?_
    · omega
    exact .done (bracedStep_close_gives hclose _)
  apply (peek_gives hopen).andThen
  apply (Gives.deeper hroom.1 hroom.2 (braced_gives hopen hbody rfl)).andThen
  apply (eat_other_gives hhi).andThen
  exact Gives.pure.andThen Gives.pure

/-! ## Enumerations

Names with commas between them, which are items of their own. -/

theorem enumMember_gives {name : String} (h : ws.kind? lo = some .ident ∧ ws.text lo = name)
    (hnext : ws.is (lo + 1) .eq = false) :
    Gives g.enumMember ⟨ws, limit⟩ d lo (leaf .enumMemberDeclaration lo name) (lo + 1) #[] := by
  apply Gives.here.andThen
  apply (attributeLists_gives h.1 (by decide)).andThen
  apply (name_gives h).andThen
  apply (eat_other_gives hnext).andThen
  apply Gives.pure.andThen
  exact Gives.node _ _ _ _ _

theorem enumStep_gives {name : String} (h : ws.kind? lo = some .ident ∧ ws.text lo = name)
    (hnext : ws.isAny (lo + 1) [.comma, .rbrace] = true) (found : Array Node) :
    Gives (bracedStep g.enumItem found) ⟨ws, limit⟩ d lo
      (.more (found ++ [leaf .enumMemberDeclaration lo name])) (lo + 1) #[] := by
  refine bracedStep_gives h.1 (by decide) ?_ found
  exact (enumMember_gives h (Words.is_eq_false_of_isAny hnext (by decide))).andThen Gives.pure

/-- All values behind the first are read, up to the closing brace. -/
theorem repeats_enumMembers {names : List String}
    (h : Spells ws lo (names.flatMap fun name => [mark .comma, used name]) hi)
    (hhi : ws.kind? hi = some .rbrace) (found : Array Node) :
    Repeats (bracedStep g.enumItem) ⟨ws, limit⟩ d found lo
      (found ++ leaves .enumMemberDeclaration (lo + 1) names) (hi + 1) #[] := by
  induction names generalizing lo found with
  | nil =>
      obtain rfl : lo = hi := h
      exact .done (bracedStep_close_gives hhi found)
  | cons name names ih =>
      obtain ⟨⟨hcomma, -⟩, hname, hrest⟩ := h
      have hsize := Words.lt_size_of_kind? hname.1
      rw [leaves, appendList_cons]
      have hcomma : ws.kind? lo = some .comma := hcomma
      have hskip : Gives (g.enumItem .comma) ⟨ws, limit⟩ d lo [] (lo + 1) #[] := by
        apply Gives.bump.andThen
        exact Gives.pure
      refine Repeats.andThen (bracedStep_gives hcomma (by decide) hskip found) (Nat.lt_succ_self lo)
        (Nat.le_of_lt hsize) ?_
      refine Repeats.andThen ?_ (Nat.lt_succ_self (lo + 1)) hsize (ih hrest _)
      exact enumStep_gives hname (isAny_of_divided hrest hhi) _

theorem repeats_enumBody {names : List String} (h : Spells ws lo (divided .comma used names) hi)
    (hhi : ws.kind? hi = some .rbrace) :
    Repeats (bracedStep g.enumItem) ⟨ws, limit⟩ d #[] lo
      ((#[] : Array Node) ++ leaves .enumMemberDeclaration lo names) (hi + 1) #[] := by
  cases names with
  | nil =>
      obtain rfl : lo = hi := h
      exact .done (bracedStep_close_gives hhi _)
  | cons name names =>
      obtain ⟨hname, hrest⟩ := h
      rw [leaves, appendList_cons]
      refine Repeats.andThen ?_ (Nat.lt_succ_self lo) (Words.lt_size_of_kind? hname.1)
        (repeats_enumMembers hrest hhi _)
      exact enumStep_gives hname (isAny_of_divided hrest hhi) _

/-! ## Dotted names

Each dot and name puts a node over what was read before. -/

/-- All parts behind the first are read, and the tree grows to the left. -/
theorem repeats_dotted {m : Modifiers} {names : List String} {first : Nat} {found : Node}
    (h : Spells ws lo (names.flatMap fun name =>
      [mark .dot, declared .namespaceDeclaration m name]) hi)
    (hhi : ws.kind? hi = some .lbrace) :
    Repeats (dottedStep first) ⟨ws, limit⟩ d found lo (dotted first found lo names) hi #[] := by
  induction names generalizing lo found with
  | nil =>
      obtain rfl : lo = hi := h
      have hdot : ws.is lo .dot = false := by
        rw [Words.is_of_kind? hhi]
        rfl
      exact .done ((eat_other_gives hdot).andThen Gives.pure)
  | cons name names ih =>
      obtain ⟨⟨hdot, -⟩, hname, hrest⟩ := h
      refine Repeats.andThen ?_ (by omega : lo < lo + 2) (Words.lt_size_of_kind? hname.1) (ih hrest)
      apply (eat_gives hdot).andThen
      apply Gives.here.andThen
      apply (name_gives hname).andThen
      apply (Gives.node _ _ _ _ _).andThen
      exact (Gives.node _ _ _ _ _).andThen Gives.pure

theorem qualifiedName_gives {m : Modifiers} {name : String} {names : List String}
    (h : Spells ws lo (divided .dot (declared .namespaceDeclaration m) (name :: names)) hi)
    (hhi : ws.kind? hi = some .lbrace) :
    Gives qualifiedName ⟨ws, limit⟩ d lo (dotted lo (leaf .identifierName lo name) (lo + 1) names)
      hi #[] := by
  obtain ⟨hname, hrest⟩ := h
  apply Gives.here.andThen
  apply (name_gives hname).andThen
  apply (Gives.node _ _ _ _ _).andThen
  exact (repeats_dotted hrest hhi).loop (Words.lt_size_of_kind? hname.1)

end SharpTokens.Program
