import SharpTokens.Proofs.Program.Phrases

/-!
# Declarations of plain programs

Each declaration that is spelled ahead is read as its own syntax tree and nothing else
(`Decl.reads`): looking ahead tells a type from a member, a method from a property and a field, and
the end of a declaration from the next one.

A declaration is read in the place where it stands, by the loop that is at work there. So what is
shown of one declaration is that this loop takes a step over it and finds its tree (`Readable`), and
of several that the loop goes through them one by one.

Everything is said with `Gives`, which includes that no fault is noted and that the state is
otherwise as before.
-/

namespace SharpTokens.Program

open Grammar Grammar.Parser Nonterminals

variable {ws : Words} {limit d lo hi i j : Nat} {g : Nonterminals} {k : Kind}

/-! ## Members with a type

What follows the name tells the three kinds apart: a parenthesis, a brace, or a comma or semicolon.
-/

/-- The name is not qualified, by what follows it. -/
theorem memberName_gives {name : String} (h : ws.kind? lo = some .ident ∧ ws.text lo = name)
    (hnext : ws.isAny (lo + 1) [.comma, .semi, .lparen, .lbrace] = true) :
    Gives memberName ⟨ws, limit⟩ d lo (.name (.present lo name)) (lo + 1) #[] := by
  apply (isAt_gives .ident h.1).andThen
  apply (name_gives h).andThen
  refine loop_gives ?_ (Words.lt_size_of_kind? h.1)
  apply (Gives.lookWithin _).andThen
  rw [if_neg (by rw [Words.is_eq_false_of_isAny hnext (by decide)]; exact Bool.false_ne_true)]
  apply (Gives.moveTo _).andThen
  apply (Gives.look _).andThen
  rw [if_neg (by rw [Words.is_eq_false_of_isAny hnext (by decide)]; exact Bool.false_ne_true)]
  exact Gives.pure

/-- A parenthesis follows the name. -/
theorem method_gives (hplain : Plain ws) {h : Head} {name : String} {ps : List Program.Parameter}
    {hasBody : Bool} (hopen : ws.kind? (lo + 1) = some .lparen)
    (hps : Spells ws (lo + 2) (parameterWords ps) i) (hclose : ws.kind? i = some .rparen)
    (hbody : Spells ws (i + 1) (bodyWords hasBody) hi) (hlimit : ∀ p ∈ ps, p.type.nesting ≤ limit)
    (hroom : hasBody = true → Room limit d) :
    Gives (g.method h (.present lo name)) ⟨ws, limit⟩ d (lo + 1)
      (named .methodDeclaration h.first hi lo name h.modifiers
        (h.attributes ++ (unnamed .parameterList (lo + 1) (i + 1) .none (parameterTrees (lo + 2) ps)
          :: bodyTrees (i + 1) hasBody))) hi #[] := by
  have hlt : ws.is (lo + 1) .lt = false := by
    rw [Words.is_of_kind? hopen]
    rfl
  apply (typeParameters_gives hlt).andThen
  apply (expectParameters_gives hplain hopen hps hclose hlimit).andThen
  apply (constraints_gives hplain (Words.lt_size_of_kind? hclose)).andThen
  apply (memberBody_gives hbody hroom).andThen
  exact Gives.node _ _ _ _ _

/-- Neither a parenthesis nor a brace does. -/
theorem field_gives {h : Head} {m : Modifiers} {name : String} {names : List String} (first : Nat)
    (hnames : Spells ws (lo + 1) (names.flatMap fun name =>
      [mark .comma, declared .variableDeclarator m name]) hi)
    (hhi : ws.kind? hi = some .semi) :
    Gives (g.namedMember h first (.present lo name)) ⟨ws, limit⟩ d (lo + 1)
      (unnamed .fieldDeclaration h.first (hi + 1) h.modifiers (h.attributes
        ++ [unnamed .variableDeclaration first hi .none
          (leaves .variableDeclarator lo (name :: names))]))
      (hi + 1) #[] := by
  have hrest : Gives (g.declarators first (.present lo name) >>= fun declared =>
      expect .semi >>= fun _ => h.unnamed .fieldDeclaration [declared]) ⟨ws, limit⟩ d (lo + 1)
      (unnamed .fieldDeclaration h.first (hi + 1) h.modifiers (h.attributes
        ++ [unnamed .variableDeclaration first hi .none
          (leaves .variableDeclarator lo (name :: names))]))
      (hi + 1) #[] := by
    apply (declarators_gives first hnames hhi).andThen
    apply (expect_gives hhi).andThen
    exact Gives.node _ _ _ _ _
  obtain ⟨k, hk, hkind⟩ := Words.isAny_eq_true.1 (isAny_of_divided hnames hhi)
  apply (peek_gives hkind).andThen
  simp only [List.mem_cons, List.not_mem_nil, or_false] at hk
  rcases hk with rfl | rfl <;> exact hrest

/-- A member with a type, whose name and what follows are read as given. -/
theorem typedMember_gives {h : Head} {t : TypeTerm .type} {name : String} {r : Node}
    (htype : Spells ws lo t.spell i) (hlimit : t.nesting ≤ limit)
    (hname : ws.kind? i = some .ident ∧ ws.text i = name)
    (hnext : ws.isAny (i + 1) [.comma, .semi, .lparen, .lbrace] = true)
    (hr : Gives (g.namedMember h lo (.present i name)) ⟨ws, limit⟩ d (i + 1) r hi #[]) :
    Gives (g.typedMember h) ⟨ws, limit⟩ d lo (some r) hi #[] := by
  have hi := closes_of_ident hname.1
  obtain ⟨hstart, hparen⟩ := t.starts htype hi
  apply (Gives.look _).andThen
  simp only [hparen, Bool.and_false]
  apply (eat_other_gives (Words.is_eq_false_of_isAny hstart (by decide))).andThen
  apply Gives.here.andThen
  apply (skipType_gives htype hi hlimit).andThen
  apply (peek_gives hname.1).andThen
  apply (memberName_gives hname hnext).andThen
  exact hr.andThen Gives.pure

/-! ## Heads of declarations

A declaration starts with its modifiers, behind no attributes. -/

def typeWords : List Kind := [.classKw, .structKw, .interfaceKw, .enumKw]

def modifierKinds : List Kind := [.modifier, .staticKw, .readonlyKw, .abstractKw, .newKw, .unsafeKw]

def startKinds : List Kind := modifierKinds ++ afterModifiers

theorem Modifier.kind_mem (m : Modifier) : m.word.kind ∈ modifierKinds := by
  cases m <;> simp [word, mark, modifierKinds]

/-- The first of some modifiers, or what follows them. -/
theorem isAny_of_modifiers {ms : List Modifier} {ks : List Kind}
    (h : Spells ws lo (ms.map Modifier.word) hi) (hhi : ws.isAny hi ks = true) :
    ws.isAny lo (modifierKinds ++ ks) = true := by
  cases ms with
  | nil =>
      obtain rfl : lo = hi := h
      exact Words.isAny_mono hhi fun k hk => List.mem_append_right _ hk
  | cons m ms => exact Words.isAny_eq_true.2 ⟨_, List.mem_append_left _ m.kind_mem, h.1.1⟩

/-- No attributes stand where a declaration starts. -/
theorem attributeLists_gives_of_start (h : ws.isAny lo startKinds = true) :
    Gives attributeLists ⟨ws, limit⟩ d lo [] lo #[] := by
  obtain ⟨k, hk, hkind⟩ := Words.isAny_eq_true.1 h
  refine attributeLists_gives hkind ?_
  rintro rfl
  revert hk
  decide

/-- Behind the modifiers a type is ahead. -/
theorem memberDeclaration_typed_gives (hplain : Plain ws) {ms : List Modifier}
    {t : TypeTerm .type} {r : Node} (hms : Spells ws lo (ms.map Modifier.word) i)
    (htype : Spells ws i t.spell j) (hj : Closes ws j .type)
    (hr : Gives (g.typedMember ⟨lo, [], effective ms⟩) ⟨ws, limit⟩ d i (some r) hi #[]) :
    Gives g.memberDeclaration ⟨ws, limit⟩ d lo (some r) hi #[] := by
  have hstart := (t.starts htype hj).1
  have hafter : ws.isAny i afterModifiers = true := Words.isAny_mono hstart (by decide)
  obtain ⟨k, hk, hkind⟩ := Words.isAny_eq_true.1 hstart
  have hrecord : Gives (look Words.startsRecord) ⟨ws, limit⟩ d i false i #[] :=
    hplain.startsRecord i ▸ Gives.look _
  apply Gives.here.andThen
  apply (attributeLists_gives_of_start (isAny_of_modifiers hms hafter)).andThen
  apply (modifiers_gives hplain hms hafter).andThen
  apply (peek_gives hkind).andThen
  simp only [List.mem_cons, List.not_mem_nil, or_false] at hk
  rcases hk with rfl | rfl | rfl <;> exact hrecord.andThen hr

/-! ## Types

The keyword behind the modifiers tells what it is. -/

/-- No parameters and no base types follow the name. -/
theorem typeDeclaration_gives {h : Head} (kind : TypeKind) {name : String} {ts : List Node}
    (hname : ws.kind? (lo + 1) = some .ident ∧ ws.text (lo + 1) = name)
    (hopen : ws.kind? (lo + 2) = some .lbrace) (hroom : Room limit d)
    (hbody : Repeats (bracedStep g.typeItem) ⟨ws, limit⟩ (d + 1) #[] (lo +
      3) ((#[] : Array Node) ++ ts) hi #[])
    (hnext : ws.is hi .semi = false) :
    Gives (g.typeDeclaration kind.node h) ⟨ws, limit⟩ d lo
      (named kind.node h.first hi (lo + 1) name h.modifiers (h.attributes ++ ts)) hi #[] := by
  have hlt : ws.is (lo + 2) .lt = false := by
    rw [Words.is_of_kind? hopen]
    rfl
  have hrecord : (kind.node == .recordDeclaration) = false := by
    cases kind <;> rfl
  apply Gives.bump.andThen
  rw [hrecord]
  apply (name_gives hname).andThen
  apply (typeParameters_gives hlt).andThen
  apply (isAt_gives .lparen hopen).andThen
  apply Gives.pure.andThen
  apply (typeHeader_gives hopen).andThen
  apply (peek_gives hopen).andThen
  apply (Gives.deeper hroom.1 hroom.2 (braced_gives hopen hbody Array.toList_appendList)).andThen
  apply (eat_other_gives hnext).andThen
  apply Gives.pure.andThen
  exact Gives.node _ _ _ _ _

theorem enumDeclaration_gives {h : Head} {name : String} {names : List String}
    (hname : ws.kind? (lo + 1) = some .ident ∧ ws.text (lo + 1) = name)
    (hopen : ws.kind? (lo + 2) = some .lbrace) (hroom : Room limit d)
    (hnames : Spells ws (lo + 3) (divided .comma used names) i) (hclose : ws.kind? i = some .rbrace)
    (hnext : ws.is (i + 1) .semi = false) :
    Gives (g.enumDeclaration h) ⟨ws, limit⟩ d lo
      (named .enumDeclaration h.first (i + 1) (lo + 1) name h.modifiers
        (h.attributes ++ leaves .enumMemberDeclaration (lo + 3) names)) (i + 1) #[] := by
  have hbody : Gives (braced g.enumItem) ⟨ws, limit⟩ (d + 1) (lo + 2)
      (leaves .enumMemberDeclaration (lo + 3) names)
      (i + 1) #[] :=
    braced_gives hopen (repeats_enumBody hnames hclose) Array.toList_appendList
  apply Gives.bump.andThen
  apply (name_gives hname).andThen
  apply (typeHeader_gives hopen).andThen
  apply (isAt_gives .lbrace hopen).andThen
  apply (Gives.deeper hroom.1 hroom.2 hbody).andThen
  apply (eat_other_gives hnext).andThen
  apply Gives.pure.andThen
  exact Gives.node _ _ _ _ _

theorem memberDeclaration_type_gives (hplain : Plain ws) {ms : List Modifier}
    (kind : TypeKind) {r : Node} (hms : Spells ws lo (ms.map Modifier.word) i)
    (hkind : ws.kind? i = some kind.keyword)
    (hr : Gives (g.typeDeclaration kind.node ⟨lo, [], effective ms⟩) ⟨ws, limit⟩ d i r hi #[]) :
    Gives g.memberDeclaration ⟨ws, limit⟩ d lo (some r) hi #[] := by
  have hafter : ws.isAny i afterModifiers = true := by
    rw [Words.isAny_of_kind? hkind]
    cases kind <;> rfl
  apply Gives.here.andThen
  apply (attributeLists_gives_of_start (isAny_of_modifiers hms hafter)).andThen
  apply (modifiers_gives hplain hms hafter).andThen
  apply (peek_gives hkind).andThen
  cases kind with
  | classType => exact hr.andThen Gives.pure
  | structType => exact hr.andThen Gives.pure
  | interfaceType => exact hr.andThen Gives.pure

theorem memberDeclaration_enum_gives (hplain : Plain ws) {ms : List Modifier} {r : Node}
    (hms : Spells ws lo (ms.map Modifier.word) i) (hkind : ws.kind? i = some .enumKw)
    (hr : Gives (g.enumDeclaration ⟨lo, [], effective ms⟩) ⟨ws, limit⟩ d i r hi #[]) :
    Gives g.memberDeclaration ⟨ws, limit⟩ d lo (some r) hi #[] := by
  have hafter : ws.isAny i afterModifiers = true := by
    rw [Words.isAny_of_kind? hkind]
    rfl
  apply Gives.here.andThen
  apply (attributeLists_gives_of_start (isAny_of_modifiers hms hafter)).andThen
  apply (modifiers_gives hplain hms hafter).andThen
  apply (peek_gives hkind).andThen
  exact hr.andThen Gives.pure

/-! ## Namespaces

A brace follows the name. -/

theorem namespaceBody_gives {m : Modifiers} {name : String} {names : List String} {ts : List Node}
    (hname : Spells ws (lo + 1) (divided .dot (declared .namespaceDeclaration m) (name :: names)) i)
    (hopen : ws.kind? i = some .lbrace) (hroom : Room limit d)
    (hbody : Repeats (bracedStep fun _ => g.namespaceMember) ⟨ws, limit⟩ (d + 1) #[] (i + 1)
      ((#[] : Array Node) ++ ts) hi #[])
    (hnext : ws.is hi .semi = false) :
    Gives g.namespaceBody ⟨ws, limit⟩ d lo
      (unnamed .namespaceDeclaration lo hi .none
        (dotted (lo + 1) (leaf .identifierName (lo + 1) name) (lo + 2) names :: ts)) hi #[] := by
  have hsemi : ws.is i .semi = false := by
    rw [Words.is_of_kind? hopen]
    rfl
  apply Gives.here.andThen
  apply Gives.bump.andThen
  apply (qualifiedName_gives hname hopen).andThen
  apply (eat_other_gives hsemi).andThen
  apply (isAt_gives .lbrace hopen).andThen
  apply (Gives.deeper hroom.1 hroom.2 (braced_gives hopen hbody Array.toList_appendList)).andThen
  apply (eat_other_gives hnext).andThen
  exact Gives.node _ _ _ _ _

/-! ## Where declarations stand

In a type, in a namespace and at the top of a text different loops are at work. Each reads a
declaration that may stand there, once it is told that it is one. -/

/-- A declaration that may stand at a place is read from `lo` to before `hi`, and it can be told
what it is. -/
inductive Readable (g : Nonterminals) (ws : Words) (limit d lo hi : Nat) : Place → Node → Prop
  | space {t : Node} : ws.kind? lo = some .namespaceKw →
      Gives g.namespaceDeclaration ⟨ws, limit⟩ d lo t hi #[] →
      Readable g ws limit d lo hi .space t
  | type {place : Place} {t : Node} :
      ws.isAny lo (modifierKinds ++ typeWords) = true → ws.startsMember lo = true →
      Gives g.member ⟨ws, limit⟩ d lo (some t) hi #[] → Readable g ws limit d lo hi place t
  | member {t : Node} : ws.isAny lo startKinds = true →
      Gives g.member ⟨ws, limit⟩ d lo (some t) hi #[] →
      Readable g ws limit d lo hi .type t

variable {t : Node}

theorem memberOrRecover_gives {p : Parser (Option Node)}
    (h : Gives p ⟨ws, limit⟩ d lo (some t) hi #[]) (hlt : lo < hi) :
    Gives (memberOrRecover p) ⟨ws, limit⟩ d lo [t] hi #[] := by
  apply Gives.here.andThen
  apply h.andThen
  apply Gives.here.andThen
  rw [if_neg (Nat.ne_of_gt hlt)]
  exact Gives.pure

theorem Readable.typeStep (h : Readable g ws limit d lo hi .type t) (hlt : lo < hi)
    (found : Array Node) :
    Gives (bracedStep g.typeItem found) ⟨ws, limit⟩ d lo (.more (found ++ [t])) hi #[] := by
  obtain ⟨hstart, hmember⟩ : ws.isAny lo startKinds = true ∧
      Gives g.member ⟨ws, limit⟩ d lo (some t) hi #[] := by
    cases h with
    | type hstart _ hmember => exact ⟨Words.isAny_mono hstart (by decide), hmember⟩
    | member hstart hmember => exact ⟨hstart, hmember⟩
  obtain ⟨k, hk, hkind⟩ := Words.isAny_eq_true.1 hstart
  refine bracedStep_gives hkind (by rintro rfl; revert hk; decide) ?_ found
  rw [typeItem, beq_false_of_ne (by rintro rfl; revert hk; decide)]
  exact memberOrRecover_gives hmember hlt

theorem noUsing_gives (h : ws.kind? lo = some k) (hk : k ∉ [.usingKw, .externKw, .ident]) :
    Gives (look Words.startsUsing) ⟨ws, limit⟩ d lo false lo #[] := by
  have hno : ws.startsUsing lo = false := by
    rw [Words.startsUsing, h]
    split
    · cases ‹some k = _›
      exact absurd hk (by decide)
    · cases ‹some k = _›
      exact absurd hk (by decide)
    · cases ‹some k = _›
      exact absurd hk (by decide)
    · rfl
  exact hno ▸ Gives.look _

theorem Readable.namespaceMember (h : Readable g ws limit d lo hi .space t) (hlt : lo < hi) :
    Gives g.namespaceMember ⟨ws, limit⟩ d lo [t] hi #[] := by
  refine memberOrRecover_gives ?_ hlt
  cases h with
  | space hkind hspace =>
      apply (peek_gives hkind).andThen
      exact hspace.andThen Gives.pure
  | type hstart _ hmember =>
      obtain ⟨k, hk, hkind⟩ := Words.isAny_eq_true.1 hstart
      have husing : Gives (look Words.startsUsing) ⟨ws, limit⟩ d lo false lo #[] :=
        noUsing_gives hkind (by revert hk; cases k <;> decide)
      apply (peek_gives hkind).andThen
      simp only [modifierKinds, typeWords, List.cons_append, List.nil_append, List.mem_cons,
        List.not_mem_nil, or_false] at hk
      rcases hk with rfl | rfl | rfl | rfl | rfl | rfl | rfl | rfl | rfl | rfl <;>
        exact husing.andThen hmember

theorem Readable.spaceStep (h : Readable g ws limit d lo hi .space t) (hlt : lo < hi)
    (found : Array Node) :
    Gives (bracedStep (fun _ => g.namespaceMember) found) ⟨ws, limit⟩ d lo (.more (found ++ [t]))
      hi #[] := by
  obtain ⟨k, hk, hkind⟩ : ∃ k, k ≠ .rbrace ∧ ws.kind? lo = some k := by
    cases h with
    | space hkind _ => exact ⟨_, by decide, hkind⟩
    | type hstart _ _ =>
        obtain ⟨k, hk, hkind⟩ := Words.isAny_eq_true.1 hstart
        exact ⟨k, by rintro rfl; revert hk; decide, hkind⟩
  exact bracedStep_gives hkind hk (h.namespaceMember hlt) found

/-- At the top of a text a type is told by looking ahead, and a namespace by its keyword. -/
theorem Readable.topLevelItem (h : Readable g ws limit d lo hi .space t) :
    Gives g.topLevelItem ⟨ws, limit⟩ d lo (some t) hi #[] := by
  cases h with
  | space hkind hspace =>
      apply (peek_gives hkind).andThen
      apply (Gives.lookWithin _).andThen
      apply (noUsing_gives hkind (by decide)).andThen
      exact hspace.andThen Gives.pure
  | type hstart hleads hmember =>
      obtain ⟨k, hk, hkind⟩ := Words.isAny_eq_true.1 hstart
      have husing : Gives (look Words.startsUsing) ⟨ws, limit⟩ d lo false lo #[] :=
        noUsing_gives hkind (by revert hk; cases k <;> decide)
      have hlook : Gives (look Words.startsMember) ⟨ws, limit⟩ d lo true lo #[] :=
        hleads ▸ Gives.look _
      apply (peek_gives hkind).andThen
      simp only [modifierKinds, typeWords, List.cons_append, List.nil_append, List.mem_cons,
        List.not_mem_nil, or_false] at hk
      rcases hk with rfl | rfl | rfl | rfl | rfl | rfl | rfl | rfl | rfl | rfl <;>
        exact (Gives.lookWithin _).andThen (husing.andThen (hlook.andThen hmember))

theorem Readable.unitStep (h : Readable g ws limit d lo hi .space t) (hlt : lo < hi)
    (found : Array Node) :
    Gives (g.unitStep found) ⟨ws, limit⟩ d lo (.more (found ++ [t])) hi #[] := by
  obtain ⟨k, hkind⟩ : ∃ k, ws.kind? lo = some k := by
    cases h with
    | space hkind _ => exact ⟨_, hkind⟩
    | type hstart _ _ =>
        obtain ⟨k, -, hkind⟩ := Words.isAny_eq_true.1 hstart
        exact ⟨k, hkind⟩
  apply (peek_gives hkind).andThen
  apply Gives.here.andThen
  apply h.topLevelItem.andThen
  apply Gives.here.andThen
  rw [if_neg (Nat.ne_of_gt hlt)]
  exact Gives.pure

/-- Behind modifiers that lead to a type, there is a declaration to be seen. -/
theorem leadsToMember_eq_true {ms : List Modifier} {n : Nat}
    (h : Spells ws lo (ms.map Modifier.word) hi) (hhi : ws.isAny hi typeWords = true)
    (hn : ms.length < n) : ws.leadsToMember n lo = true := by
  induction ms generalizing lo n with
  | nil =>
      obtain rfl : lo = hi := h
      obtain ⟨n, rfl⟩ := Nat.exists_eq_add_of_lt hn
      obtain ⟨k, hk, hkind⟩ := Words.isAny_eq_true.1 hhi
      rw [Words.leadsToMember, hkind]
      simp only [typeWords, List.mem_cons, List.not_mem_nil, or_false] at hk
      rcases hk with rfl | rfl | rfl | rfl <;> rfl
  | cons m ms ih =>
      obtain ⟨n, rfl⟩ := Nat.exists_eq_add_of_lt hn
      obtain ⟨⟨hkind, -⟩, hrest⟩ := h
      have hleads := ih hrest (n := ms.length + 1 + n) (by omega)
      rw [Words.leadsToMember, hkind]
      cases m with
      | access text => rfl
      | static => exact hleads
      | readonly => rfl
      | abstract => rfl
      | new => exact hleads
      | unsafeCode => exact hleads

theorem startsMember_eq_true {ms : List Modifier} (h : Spells ws lo (ms.map Modifier.word) hi)
    (hhi : ws.isAny hi typeWords = true) : ws.startsMember lo = true := by
  have hbracket : ws.is lo .lbracket = false :=
    Words.is_eq_false_of_isAny (isAny_of_modifiers h hhi) (by decide)
  rw [Words.startsMember, Words.pastAttributes?_eq_self hbracket, Option.any_some]
  refine leadsToMember_eq_true h hhi ?_
  have hlength := h.eq_add
  have hsize := Words.lt_size_of_isAny hhi
  rw [List.length_map] at hlength
  omega

/-! ## All declarations

By recursion on the declaration, one lemma for each constructor. -/

/-- What neither a declaration starts with nor the end of what is around it. -/
def Ends (ws : Words) (i : Nat) : Prop := ws.isAny i [.semi, .eq] = false

theorem ends_of_kind? (h : ws.kind? i = some k) (hk : k ∉ [.semi, .eq]) : Ends ws i := by
  rw [Ends, Words.isAny_of_kind? h, List.contains_eq_mem]
  exact decide_eq_false hk

theorem Ends.is_eq_false (h : Ends ws i) (hk : k ∈ [.semi, .eq]) : ws.is i k = false := by
  rw [Words.is_eq_false]
  intro hkind
  rw [Ends, Words.isAny_of_kind? hkind, List.contains_eq_mem] at h
  exact of_decide_eq_false h hk

/-- What a declaration starts with. -/
theorem Decl.starts {place : Place} (decl : Decl .one place) (h : Spells ws lo decl.spell hi) :
    ws.isAny lo (.namespaceKw :: startKinds) = true := by
  have hmodified : ∀ {ms : List Modifier} {i : Nat}, Spells ws lo (ms.map Modifier.word) i →
      ws.isAny i afterModifiers = true → ws.isAny lo (.namespaceKw :: startKinds) = true :=
      fun hms hi =>
    Words.isAny_mono (isAny_of_modifiers hms hi) fun k hk => List.mem_cons_of_mem _ hk
  cases decl with
  | space name more body => exact Words.isAny_eq_true.2 ⟨_, List.mem_cons_self, h.1.1⟩
  | type ms kind name body =>
      obtain ⟨i, hms, hkind, -⟩ := spells_append.1 h
      exact hmodified hms (Words.isAny_eq_true.2 ⟨_, by cases kind <;> decide, hkind.1⟩)
  | enum ms name values =>
      obtain ⟨i, hms, hkind, -⟩ := spells_append.1 h
      exact hmodified hms (Words.isAny_eq_true.2 ⟨_, by decide, hkind.1⟩)
  | field ms t name more =>
      obtain ⟨i, hms, h⟩ := spells_append.1 h
      obtain ⟨j, ht, hname⟩ := spells_append.1 h
      exact hmodified hms (Words.isAny_mono (t.starts ht (closes_of_ident hname.1.1)).1 (by decide))
  | method ms t name parameters hasBody =>
      obtain ⟨i, hms, h⟩ := spells_append.1 h
      obtain ⟨j, ht, hname⟩ := spells_append.1 h
      exact hmodified hms (Words.isAny_mono (t.starts ht (closes_of_ident hname.1.1)).1 (by decide))
  | property ms t name =>
      obtain ⟨i, hms, h⟩ := spells_append.1 h
      obtain ⟨j, ht, hname⟩ := spells_append.1 h
      exact hmodified hms (Words.isAny_mono (t.starts ht (closes_of_ident hname.1.1)).1 (by decide))

/-- What declarations are followed by ends them. -/
theorem Decl.ends {place : Place} (decl : Decl .many place) (h : Spells ws lo decl.spell hi)
    (hhi : Ends ws hi) :
    Ends ws lo := by
  cases decl with
  | nil =>
      obtain rfl : lo = hi := h
      exact hhi
  | cons first rest =>
      obtain ⟨mid, hfirst, -⟩ := spells_append.1 h
      exact Words.isAny_eq_false_of_isAny (first.starts hfirst) (by decide)

/-- Inside `d` constructs, braces and types nest within the limit. -/
structure Fits (limit d : Nat) {count : Count} {place : Place}
    (decl : Decl count place) : Prop where
  braces : d + decl.braces ≤ min limit Guard.unlimited
  types : decl.typeNesting ≤ limit

/-- A declaration is read as its tree wherever it is spelled. Several of them are read by any step
that reads them one by one: what it finds before and after them, it also finds around their
trees. -/
def Reads (ws : Words) (limit : Nat) {place : Place} : {count : Count} → Decl count place → Prop
  | .one, decl => ∀ {n d lo hi : Nat}, decl.spell.length < n → Fits limit d decl →
      Spells ws lo decl.spell hi →
      Ends ws hi → ∃ t, decl.trees lo = [t] ∧ Readable (.unfolded n) ws limit d lo hi place t
  | .many, decl => ∀ {n d lo hi : Nat}, decl.spell.length < n → Fits limit d decl →
      Spells ws lo decl.spell hi →
      Ends ws hi → ∀ {step : Array Node → Parser (Step (Array Node))},
      (∀ {t : Node} {lo hi : Nat}, Readable (.unfolded n) ws limit d lo hi place t →
        lo < hi → ∀ found,
        Gives (step found) ⟨ws, limit⟩ d lo (.more (found ++ [t])) hi #[]) →
      ∀ {found r : Array Node} {past : Nat},
        Repeats step ⟨ws, limit⟩ d (found ++ decl.trees lo) hi r past #[] →
        Repeats step ⟨ws, limit⟩ d found lo r past #[]

theorem Fits.room {count : Count} {place : Place} {decl : Decl count place} (h : Fits limit d decl)
    (hbraces : 0 < decl.braces) : Room limit d := by
  have := h.braces
  exact ⟨by omega, by omega⟩

/-- Declarations between braces are read as their trees. -/
theorem Reads.braced {place : Place} {body : Decl .many place}
    {item : Kind → Parser (List Node)} {n : Nat} (hbody : Reads ws limit body)
    (hn : body.spell.length < n) (hfits : Fits limit d body) (h : Spells ws lo body.spell hi)
    (hclose : ws.kind? hi = some .rbrace)
    (hstep : ∀ {t : Node} {lo hi : Nat}, Readable (.unfolded n) ws limit d lo hi place t →
      lo < hi → ∀ found,
      Gives (bracedStep item found) ⟨ws, limit⟩ d lo (.more (found ++ [t])) hi #[]) :
    Repeats (bracedStep item) ⟨ws, limit⟩ d #[] lo ((#[] : Array Node) ++ body.trees lo)
      (hi + 1) #[] :=
  hbody hn hfits h (ends_of_kind? hclose (by decide)) hstep
    (.done (bracedStep_close_gives hclose _))

theorem spells_modifiers {ms : List Modifier} (h : Spells ws lo (ms.map Modifier.word) hi) :
    lo + ms.length = hi := by
  rw [← h.eq_add, List.length_map]

/-- A namespace holds declarations a level deeper. -/
theorem reads_space (name : String) (more : List String) {body : Decl .many .space}
    (ih : Reads ws limit body) :
    Reads ws limit (.space name more body) := by
  intro n d lo hi hn hfits h hhi
  obtain ⟨n, rfl⟩ := Nat.exists_eq_add_of_lt hn
  have hlength := h.eq_add
  obtain ⟨⟨hkind, -⟩, h⟩ := h
  obtain ⟨i, hname, ⟨hopen, -⟩, h⟩ := spells_append.1 h
  obtain ⟨j, hbody, ⟨hclose, -⟩, rfl⟩ := spells_append.1 h
  have hi : lo + 2 + 2 * more.length = i := by
    have hmore := hname.2.eq_add
    rw [length_flatMap_divided] at hmore
    exact hmore
  refine ⟨unnamed .namespaceDeclaration lo (j + 1) .none
    (dotted (lo + 1) (leaf .identifierName (lo + 1) name) (lo + 2) more :: body.trees (i + 1)), ?_,
    ?_⟩
  · rw [Decl.trees, hi, hlength]
  · refine .space hkind ?_
    refine namespaceBody_gives hname hopen (hfits.room (Nat.succ_pos _)) ?_
      (hhi.is_eq_false (by decide))
    refine ih.braced ?_ ⟨?_, hfits.types⟩ hbody hclose fun h hlt found => h.spaceStep hlt found
    · simp only [Decl.spell, List.length_append, List.length_cons]
      omega
    · have := hfits.braces
      simp only [Decl.braces] at this
      omega

/-- A type holds members a level deeper. -/
theorem reads_type (hplain : Plain ws) {place : Place} (ms : List Modifier) (kind : TypeKind)
    (name : String) {body : Decl .many .type} (ih : Reads ws limit body) :
    Reads ws limit (.type ms kind name body : Decl .one place) := by
  intro n d lo hi hn hfits h hhi
  obtain ⟨n, rfl⟩ := Nat.exists_eq_add_of_lt hn
  have hlength := h.eq_add
  obtain ⟨i, hms, ⟨hkind, -⟩, hname, ⟨hopen, -⟩, h⟩ := spells_append.1 h
  obtain ⟨j, hbody, ⟨hclose, -⟩, rfl⟩ := spells_append.1 h
  have hword : ws.isAny i typeWords = true :=
    Words.isAny_eq_true.2 ⟨_, by cases kind <;> decide, hkind⟩
  refine ⟨named kind.node lo (j + 1) (i + 1) name (effective ms) (body.trees (i + 3)), ?_, ?_⟩
  · rw [Decl.trees, hlength, spells_modifiers hms]
  · refine .type (isAny_of_modifiers hms hword) (startsMember_eq_true hms hword) ?_
    refine memberDeclaration_type_gives hplain kind hms hkind ?_
    refine typeDeclaration_gives kind hname hopen (hfits.room (Nat.succ_pos _)) ?_
      (hhi.is_eq_false (by decide))
    refine ih.braced ?_ ⟨?_, hfits.types⟩ hbody hclose fun h hlt found => h.typeStep hlt found
    · simp only [Decl.spell, List.length_append, List.length_cons]
      omega
    · have := hfits.braces
      simp only [Decl.braces] at this
      omega

theorem reads_enum (hplain : Plain ws) {place : Place} (ms : List Modifier) (name : String)
    (values : List String) :
    Reads ws limit (.enum ms name values : Decl .one place) := by
  intro n d lo hi hn hfits h hhi
  obtain ⟨n, rfl⟩ := Nat.exists_eq_add_of_lt hn
  have hlength := h.eq_add
  obtain ⟨i, hms, ⟨hkind, -⟩, hname, ⟨hopen, -⟩, h⟩ := spells_append.1 h
  obtain ⟨j, hvalues, ⟨hclose, -⟩, rfl⟩ := spells_append.1 h
  have hword : ws.isAny i typeWords = true := Words.isAny_eq_true.2 ⟨_, by decide, hkind⟩
  refine ⟨named .enumDeclaration lo (j + 1) (i + 1) name (effective ms)
    (leaves .enumMemberDeclaration (i + 3) values), ?_, ?_⟩
  · rw [Decl.trees, hlength, spells_modifiers hms]
  · refine .type (isAny_of_modifiers hms hword) (startsMember_eq_true hms hword) ?_
    refine memberDeclaration_enum_gives hplain hms hkind ?_
    exact enumDeclaration_gives hname hopen (hfits.room (Nat.succ_pos _)) hvalues hclose
      (hhi.is_eq_false (by decide))

/-- A member with a type is read as given from its name on. -/
theorem readable_typed (hplain : Plain ws) {ms : List Modifier} {t : TypeTerm .type}
    {name : String} {n : Nat} {r : Node} (hms : Spells ws lo (ms.map Modifier.word) i)
    (ht : Spells ws i t.spell j) (hlimit : t.nesting ≤ limit)
    (hname : ws.kind? j = some .ident ∧ ws.text j = name)
    (hnext : ws.isAny (j + 1) [.comma, .semi, .lparen, .lbrace] = true)
    (hr : Gives ((Nonterminals.unfolded n).namedMember ⟨lo, [], effective ms⟩ i (.present j name))
      ⟨ws, limit⟩ d (j + 1)
      r hi #[]) : Readable (.unfolded (n + 1)) ws limit d lo hi .type r := by
  have hj := closes_of_ident hname.1
  have hstart : ws.isAny i afterModifiers = true := Words.isAny_mono (t.starts ht hj).1 (by decide)
  refine .member (isAny_of_modifiers hms hstart) ?_
  exact memberDeclaration_typed_gives hplain hms ht hj (typedMember_gives ht hlimit hname hnext hr)

theorem reads_field (hplain : Plain ws) (ms : List Modifier) (t : TypeTerm .type) (name : String)
    (more : List String) : Reads ws limit (.field ms t name more) := by
  intro n d lo hi hn hfits h hhi
  obtain ⟨n, rfl⟩ := Nat.exists_eq_add_of_lt hn
  have hlength := h.eq_add
  obtain ⟨i, hms, h⟩ := spells_append.1 h
  obtain ⟨j, ht, h⟩ := spells_append.1 h
  obtain ⟨past, ⟨hname, hmore⟩, ⟨hsemi, -⟩, rfl⟩ := spells_append.1 h
  have hpast : j + 2 * more.length + 1 = past := by
    have := hmore.eq_add
    rw [length_flatMap_divided] at this
    omega
  have hnext : ws.isAny (j + 1) [.comma, .semi] = true := isAny_of_divided hmore hsemi
  refine ⟨unnamed .fieldDeclaration lo (past + 1) (effective ms)
    [unnamed .variableDeclaration i past .none
    (leaves .variableDeclarator j (name :: more))], ?_, ?_⟩
  · simp only [Decl.trees, hlength, spells_modifiers hms, ht.eq_add, hpast]
  · refine readable_typed hplain hms ht hfits.types hname (Words.isAny_mono hnext (by decide)) ?_
    exact field_gives i hmore hsemi

theorem reads_method (hplain : Plain ws) (ms : List Modifier) (t : TypeTerm .type) (name : String)
    (parameters : List Program.Parameter) (hasBody : Bool) :
    Reads ws limit (.method ms t name parameters hasBody) := by
  intro n d lo hi hn hfits h hhi
  obtain ⟨n, rfl⟩ := Nat.exists_eq_add_of_lt hn
  have hlength := h.eq_add
  obtain ⟨i, hms, h⟩ := spells_append.1 h
  obtain ⟨j, ht, hname, ⟨hopen, -⟩, h⟩ := spells_append.1 h
  obtain ⟨close, hparameters, ⟨hclose, -⟩, hbody⟩ := spells_append.1 h
  obtain ⟨htype, htypes⟩ := Decl.nesting_le_foldr t.nesting parameters
  refine ⟨named .methodDeclaration lo hi j name (effective ms)
    (unnamed .parameterList (j + 1) (close + 1) .none (parameterTrees (j + 2) parameters)
      :: bodyTrees (close + 1) hasBody), ?_, ?_⟩
  · simp only [Decl.trees, hlength, spells_modifiers hms, ht.eq_add, hparameters.eq_add]
  · refine readable_typed hplain hms ht (Nat.le_trans htype hfits.types) hname
      (Words.isAny_eq_true.2 ⟨_, by decide, hopen⟩) ?_
    apply (peek_gives hopen).andThen
    refine method_gives hplain hopen hparameters hclose hbody ?_ ?_
    · exact fun p hp => Nat.le_trans (htypes p hp) hfits.types
    · -- only a body goes a level deeper
      rintro rfl
      exact hfits.room (Nat.succ_pos _)

theorem reads_property (hplain : Plain ws) (ms : List Modifier) (t : TypeTerm .type)
    (name : String) :
    Reads ws limit (.property ms t name) := by
  intro n d lo hi hn hfits h hhi
  obtain ⟨n, rfl⟩ := Nat.exists_eq_add_of_lt hn
  have hlength := h.eq_add
  obtain ⟨i, hms, h⟩ := spells_append.1 h
  obtain ⟨j, ht, hname, h⟩ := spells_append.1 h
  have hopen : ws.kind? (j + 1) = some .lbrace := h.1.1
  refine ⟨named .propertyDeclaration lo hi j name (effective ms) [], ?_, ?_⟩
  · simp only [Decl.trees, hlength, spells_modifiers hms, ht.eq_add]
  · refine readable_typed hplain hms ht hfits.types hname
      (Words.isAny_eq_true.2 ⟨_, by decide, hopen⟩) ?_
    apply (peek_gives hopen).andThen
    apply (propertyBody_gives h (hfits.room (Nat.succ_pos _)) (hhi.is_eq_false (by decide))).andThen
    exact Gives.node _ _ _ _ _

theorem reads_nil {place : Place} : Reads ws limit (.nil : Decl .many place) := by
  intro n d lo hi _ _ h _ step _ found r past hrest
  obtain rfl : lo = hi := h
  exact hrest

/-- The first declaration ends where the next one starts. -/
theorem reads_cons {place : Place} {first : Decl .one place} {rest : Decl .many place}
    (ihfirst : Reads ws limit first) (ihrest : Reads ws limit rest) :
    Reads ws limit (.cons first rest) := by
  intro n d lo hi hn hfits h hhi step hstep found r past hpast
  obtain ⟨mid, hfirst, hrest⟩ := spells_append.1 h
  have hmid := hfirst.eq_add
  have hpos := first.length_spell_pos
  have hbraces := hfits.braces
  have htypes := hfits.types
  simp only [Decl.spell, Decl.braces, Decl.typeNesting, List.length_append] at hn hbraces htypes
  have hlengthFirst : first.spell.length < n := by omega
  have hlengthRest : rest.spell.length < n := by omega
  have hfitsFirst : Fits limit d first := ⟨by omega, by omega⟩
  have hfitsRest : Fits limit d rest := ⟨by omega, by omega⟩
  -- what follows the first declaration starts the next one or ends them all, so it does not go on
  -- with the first
  obtain ⟨t, htree, hread⟩ := ihfirst hlengthFirst hfitsFirst hfirst (rest.ends hrest hhi)
  rw [Decl.trees, htree, hmid] at hpast
  have hsize := hfirst.le_size (Nat.le_of_lt (Words.lt_size_of_isAny (first.starts hfirst)))
  have hlt : lo < mid := by omega
  exact Repeats.andThen (hstep hread hlt found) hlt hsize
    (ihrest hlengthRest hfitsRest hrest hhi hstep hpast)

/-- **Declarations are read as their trees.** -/
theorem Decl.reads (hplain : Plain ws) {count : Count} {place : Place} (decl : Decl count place) :
    Reads ws limit decl := by
  induction decl with
  | space name more body ih => exact reads_space name more ih
  | type ms kind name body ih => exact reads_type hplain ms kind name ih
  | enum ms name values => exact reads_enum hplain ms name values
  | field ms t name more => exact reads_field hplain ms t name more
  | method ms t name parameters hasBody => exact reads_method hplain ms t name parameters hasBody
  | property ms t name => exact reads_property hplain ms t name
  | nil => exact reads_nil
  | cons first rest ihfirst ihrest => exact reads_cons ihfirst ihrest

end SharpTokens.Program
