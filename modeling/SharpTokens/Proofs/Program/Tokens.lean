import SharpTokens.Proofs.Program.Syntax
import SharpTokens.Proofs.Token.Words

/-!
# Tokens of plain programs

The walk through the syntax tree of declarations finds a token for each name that they declare, in
the order in which the names are spelled (`Decl.tokensBelowAll_trees`). A variable gets its
modifiers from the field around it.

Tokens are given by words alone (`Program.tokensFrom`), so it remains to follow the walk through the
tree and to see that it comes to the names in the order of the words. Modifiers of variables come
from two levels above, which the tree of a field provides.
-/

namespace SharpTokens.Program

open Text Grammar

variable {l : Layout} {lo : Nat}

def nameToken (l : Layout) (w : Nat) (text : String) (kind : NodeKind) (m : Modifiers) : Token :=
  ⟨(l.position w).line, (l.position w).character, saturate (width text.toList),
    kind.tokenType.index, m.mask⟩

/-- The tokens of the names that spelled words declare, of which the first is at `lo`. -/
def tokensFrom (l : Layout) (lo : Nat) : List Spelled → List Token
  | [] => []
  | w :: ws =>
      (w.declares.map fun d => nameToken l lo w.text d.1 d.2).toList ++ tokensFrom l (lo + 1) ws

/-- The tokens of some words and of those behind them. -/
theorem tokensFrom_append (ws vs : List Spelled) :
    tokensFrom l lo (ws ++ vs) = tokensFrom l lo ws ++ tokensFrom l (lo + ws.length) vs := by
  induction ws generalizing lo with
  | nil => rfl
  | cons w ws ih =>
      rw [List.cons_append, tokensFrom, tokensFrom, ih, List.append_assoc, List.length_cons,
        Nat.add_right_comm lo 1, Nat.add_assoc lo]

theorem tokensFrom_mark (k : Kind) (ws : List Spelled) :
    tokensFrom l lo (mark k :: ws) = tokensFrom l (lo + 1) ws := rfl

theorem tokensFrom_declared (kind : NodeKind) (m : Modifiers) (name : String) (ws : List Spelled) :
    tokensFrom l lo (declared kind m name :: ws) = nameToken l lo name kind m :: tokensFrom l
      (lo + 1) ws := rfl

def Silent (ws : List Spelled) : Prop := ∀ w ∈ ws, w.declares = none

theorem Silent.tokensFrom {ws : List Spelled} (h : Silent ws) : tokensFrom l lo ws = [] := by
  induction ws generalizing lo with
  | nil => rfl
  | cons w ws ih =>
      rw [Program.tokensFrom, h w List.mem_cons_self, ih fun w hw =>
        h w (List.mem_cons_of_mem _ hw)]
      rfl

/-- Words that declare nothing may stand before others. -/
theorem Silent.tokensFrom_append {ws : List Spelled} (h : Silent ws) (vs : List Spelled) :
    Program.tokensFrom l lo (ws ++ vs) = Program.tokensFrom l (lo + ws.length) vs := by
  rw [Program.tokensFrom_append, h.tokensFrom, List.nil_append]

theorem tokensFrom_closed (ws : List Spelled) (k : Kind) :
    Program.tokensFrom l lo (ws ++ [mark k]) = Program.tokensFrom l lo ws := by
  rw [Program.tokensFrom_append]
  exact List.append_nil _

theorem silent_modifiers (ms : List Modifier) : Silent (ms.map Modifier.word) := by
  intro w hw
  obtain ⟨m, -, rfl⟩ := List.mem_map.1 hw
  cases m <;> rfl

theorem silent_suffixes (suffixes : List Suffix) : Silent (suffixes.flatMap Suffix.spell) := by
  intro w hw
  obtain ⟨s, -, hw⟩ := List.mem_flatMap.1 hw
  cases s with
  | nullable =>
      obtain rfl := List.mem_singleton.1 hw
      rfl
  | array commas =>
      simp only [Suffix.spell, List.mem_cons, List.mem_append, List.mem_replicate, List.not_mem_nil,
        or_false] at hw
      rcases hw with rfl | ⟨-, rfl⟩ | rfl <;> rfl

/-- A type declares nothing. -/
theorem silent_type {part : Words.TypePart} (t : TypeTerm part) : Silent t.spell := by
  induction t with
  | builtin b suffixes =>
      refine List.forall_mem_cons.2 ⟨?_, silent_suffixes suffixes⟩
      cases b <;> rfl
  | named name rest suffixes ih =>
      exact List.forall_mem_cons.2 ⟨rfl, List.forall_mem_append.2 ⟨ih, silent_suffixes suffixes⟩⟩
  | applied name arguments rest suffixes iharguments ih =>
      refine List.forall_mem_cons.2 ⟨rfl, List.forall_mem_cons.2 ⟨rfl, ?_⟩⟩
      exact List.forall_mem_append.2 ⟨iharguments,
        List.forall_mem_append.2 ⟨ih, silent_suffixes suffixes⟩⟩
  | argument first rest ihfirst ih =>
      exact List.forall_mem_append.2 ⟨ihfirst, List.forall_mem_cons.2 ⟨rfl, ih⟩⟩
  | lastArgument last ih => exact List.forall_mem_append.2 ⟨ih, List.forall_mem_singleton.2 rfl⟩
  | noSegment => exact fun w hw => absurd hw List.not_mem_nil
  | segment name rest ih => exact List.forall_mem_cons.2 ⟨rfl, List.forall_mem_cons.2 ⟨rfl, ih⟩⟩
  | appliedSegment name arguments rest iharguments ih =>
      refine List.forall_mem_cons.2 ⟨rfl,
        List.forall_mem_cons.2 ⟨rfl, List.forall_mem_cons.2 ⟨rfl, ?_⟩⟩⟩
      exact List.forall_mem_append.2 ⟨iharguments, ih⟩

theorem silent_divided (divider : Kind) (names : List String) :
    Silent (divided divider used names) := by
  cases names with
  | nil => exact fun w hw => absurd hw List.not_mem_nil
  | cons name names =>
      refine List.forall_mem_cons.2 ⟨rfl, fun w hw => ?_⟩
      obtain ⟨name, -, hw⟩ := List.mem_flatMap.1 hw
      simp only [List.mem_cons, List.not_mem_nil, or_false] at hw
      rcases hw with rfl | rfl <;> rfl

theorem silent_body (hasBody : Bool) : Silent (bodyWords hasBody) := by
  cases hasBody <;> simp [Silent, bodyWords, mark]

theorem silent_accessors : Silent accessorWords := by
  simp [Silent, accessorWords, mark, used]

/-! ## Nodes

What the walk does at a node with a name, and at one without. -/

/-- The standard legend has a type and modifiers for every declaration. -/
theorem standard_token? {name : Identifier} (h : name.isAbsent = false) (kind : NodeKind)
    (m : Modifiers) :
    Legend.standard.token? name kind m
      = some ⟨name.start.line, name.start.character, saturate (width name.text.toList),
        kind.tokenType.index,
          m.mask⟩ := by
  have htype : Legend.standard.containsType kind.tokenType.index = true := by
    cases kind <;> rfl
  have hmask : m.mask &&& Legend.standard.modifierMask = m.mask := by
    obtain ⟨isStatic, isReadonly, isAbstract⟩ := m
    cases isStatic <;> cases isReadonly <;> cases isAbstract <;> rfl
  rw [Legend.token?, h, hmask]
  simp only [htype, Bool.false_eq_true, if_false, if_true]

/-- A declaration gives a token for its name. -/
theorem ownTokens_named {kind : NodeKind} {text : String} (hkind : kind.isDeclaration = true)
    (htext : text ≠ "") (first past w : Nat) (m : Modifiers) (children : List Node)
    (grandparent : Option Label) :
    (l.walk .standard).ownTokens ⟨kind, first, past, some (.present w text), m⟩ children grandparent
      = [nameToken l w text kind ((l.walk .standard).modifiersOf
          (l.declared ⟨kind, first, past, some (.present w text), m⟩) grandparent)] := by
  have hspace : kind.isNamespace = false := by
    revert hkind
    cases kind <;> decide
  have habsent : (l.identifier (.present w text)).isAbsent = false := by
    simp [Identifier.isAbsent, Layout.identifier, htext]
  show (if kind.isNamespace = true then _ else if kind.isDeclaration = true then
    (Legend.standard.token? (l.identifier (.present w text)) kind _).toList else []) = _
  rw [hspace, hkind, standard_token? habsent]
  rfl

section

variable (parent grandparent : Option Label)

theorem tokensBelow_named {kind : NodeKind} {text : String} (hkind : kind.isDeclaration = true)
    (hvariable : kind ≠ .variableDeclarator) (htext : text ≠ "") (first past w : Nat)
    (m : Modifiers) (children : List Node) :
    (l.walk .standard).tokensBelow parent grandparent (named kind first past w text m children)
      = nameToken l w text kind m :: (l.walk .standard).tokensBelowAll
          (some ⟨kind, first, past, some (.present w text), m⟩) parent children := by
  have hmodifiers : (l.walk .standard).modifiersOf
      (l.declared ⟨kind, first, past, some (.present w text), m⟩)
      grandparent = m := if_neg hvariable
  rw [named, Walk.Context.tokensBelow, ownTokens_named hkind htext, hmodifiers]
  rfl

theorem tokensBelow_unnamed {kind : NodeKind} (hspace : kind.isNamespace = false)
    (hkind : kind.isDeclaration = false) (first past : Nat) (m : Modifiers) (children : List Node) :
    (l.walk .standard).tokensBelow parent grandparent (unnamed kind first past m children)
      = (l.walk .standard).tokensBelowAll (some ⟨kind, first, past, none, m⟩) parent children := by
  rw [unnamed, Walk.Context.tokensBelow, Layout.ownTokens_eq_nil hspace hkind]
  rfl

/-! ## Parts of declarations

Variables, values of enumerations and parameters. -/

def Worded (ws : List Spelled) : Prop := ∀ w ∈ ws, w.text ≠ ""

theorem worded_append {ws vs : List Spelled} : Worded (ws ++ vs) ↔ Worded ws ∧ Worded vs :=
  List.forall_mem_append

theorem worded_cons {w : Spelled} {ws : List Spelled} :
    Worded (w :: ws) ↔ w.text ≠ "" ∧ Worded ws :=
  List.forall_mem_cons

/-- Variables have the modifiers of the field two levels above. -/
theorem tokensBelow_variable {text : String} (htext : text ≠ "") (w first past : Nat)
    (m : Modifiers) :
    (l.walk .standard).tokensBelow parent (some ⟨.fieldDeclaration, first, past, none, m⟩)
      (leaf .variableDeclarator w text) = [nameToken l w text .variableDeclarator m] := by
  rw [leaf, named, Walk.Context.tokensBelow, ownTokens_named rfl htext]
  rfl

/-- Each variable gets the modifiers of the field. -/
theorem tokensBelowAll_variables {m : Modifiers} (first past w : Nat) {names : List String}
    (h : Worded (divided .comma (declared .variableDeclarator m) names)) :
    (l.walk .standard).tokensBelowAll parent (some ⟨.fieldDeclaration, first, past, none, m⟩)
        (leaves .variableDeclarator w names)
      = tokensFrom l w (divided .comma (declared .variableDeclarator m) names) := by
  induction names generalizing w with
  | nil => rfl
  | cons name names ih =>
      obtain ⟨hname, hrest⟩ := worded_cons.1 h
      have htext : name ≠ "" := hname
      rw [leaves, Walk.Context.tokensBelowAll, tokensBelow_variable parent htext]
      cases names with
      | nil => rfl
      | cons next names =>
          rw [ih (w + 2) (worded_cons.1 hrest).2]
          rfl

theorem tokensBelowAll_enumMembers (w : Nat) (names : List String) :
    (l.walk .standard).tokensBelowAll parent grandparent
      (leaves .enumMemberDeclaration w names) = [] := by
  induction names generalizing w with
  | nil => rfl
  | cons name names ih =>
      rw [leaves, Walk.Context.tokensBelowAll, ih, List.append_nil, leaf, named,
        Walk.Context.tokensBelow, Layout.ownTokens_eq_nil rfl rfl]
      rfl

theorem tokensFrom_parameter (p : Parameter) :
    tokensFrom l lo p.spell = [nameToken l (lo + p.type.spell.length) p.name .parameter .none] := by
  rw [Parameter.spell, tokensFrom_append, (silent_type p.type).tokensFrom]
  rfl

/-- Each parameter gives a token for its name. -/
theorem tokensBelowAll_parameters {ps : List Parameter} (h : Worded (parameterWords ps)) :
    (l.walk .standard).tokensBelowAll parent grandparent (parameterTrees lo ps)
      = tokensFrom l lo (parameterWords ps) := by
  fun_induction parameterWords ps generalizing lo with
  | case1 => rfl
  | case2 p =>
      have htext : p.name ≠ "" := (worded_append.1 h).2 _ List.mem_cons_self
      rw [parameterTrees, Walk.Context.tokensBelowAll, tokensBelow_named _ _ rfl (by decide) htext,
        tokensFrom_parameter]
      rfl
  | case3 p q ps ih =>
      obtain ⟨hp, hrest⟩ := worded_append.1 h
      have htext : p.name ≠ "" := (worded_append.1 hp).2 _ List.mem_cons_self
      rw [parameterTrees, Walk.Context.tokensBelowAll, tokensBelow_named _ _ rfl (by decide) htext,
        ih (worded_cons.1 hrest).2, tokensFrom_append, tokensFrom_parameter]
      rfl

/-! ## Namespaces

Each part of a dotted name is a token, from left to right. -/

theorem isDottedName_dotted {first dot : Nat} {found : Node} (h : IsDottedName found)
    (names : List String) :
    IsDottedName (dotted first found dot names) := by
  induction names generalizing found dot with
  | nil => exact h
  | cons name names ih => exact ih (.dot rfl rfl h (.part rfl))

theorem partTokens_leaf {text : String} (htext : text ≠ "") (w : Nat) :
    (l.walk .standard).partTokens (leaf .identifierName w text)
      = [nameToken l w text .namespaceDeclaration .none] := by
  have habsent : (l.identifier (.present w text)).isAbsent = false := by
    simp [Identifier.isAbsent, Layout.identifier, htext]
  show (Legend.standard.token? (l.identifier (.present w text)) .namespaceDeclaration
      .none).toList = _
  rw [standard_token? habsent]
  rfl

/-- The parts of a dotted name give a token each, behind those of what was read before. -/
theorem partTokens_dotted {first dot : Nat} {found : Node} {names : List String}
    (h : Worded (names.flatMap fun name =>
      [mark .dot, declared .namespaceDeclaration .none name])) :
    (l.walk .standard).partTokens (dotted first found dot names) =
      (l.walk .standard).partTokens found
      ++ tokensFrom l dot (names.flatMap fun name =>
        [mark .dot, declared .namespaceDeclaration .none name]) := by
  induction names generalizing found dot with
  | nil => exact (List.append_nil _).symm
  | cons name names ih =>
      rw [List.flatMap_cons, worded_append] at h
      have htext : name ≠ "" := h.1 _ (List.mem_cons_of_mem _ List.mem_cons_self)
      have hnode : (l.walk .standard).partTokens (unnamed .qualifiedName first (dot + 2) .none
          [found, leaf .identifierName (dot + 1) name]) = (l.walk .standard).partTokens found
            ++ ((l.walk .standard).partTokens (leaf .identifierName (dot + 1) name) ++ []) := rfl
      rw [dotted, ih h.2, hnode, partTokens_leaf htext, List.append_assoc]
      rfl

/-- The name of a namespace comes before what it holds. -/
theorem tokensBelow_space {name : Node} (h : IsDottedName name) (first past : Nat)
    (rest : List Node) :
    (l.walk .standard).tokensBelow parent grandparent
      (unnamed .namespaceDeclaration first past .none (name :: rest))
      = (l.walk .standard).partTokens name ++ (l.walk .standard).tokensBelowAll
          (some ⟨.namespaceDeclaration, first, past, none, .none⟩) parent rest := by
  have hown : (l.walk .standard).ownTokens ⟨.namespaceDeclaration, first, past, none, .none⟩
      (name :: rest) grandparent
      = (l.walk .standard).partTokens name :=
    (l.walk .standard).namespaceTokens_cons rest (Layout.isName_of_isDottedName h)
  rw [unnamed, Walk.Context.tokensBelow, hown, Walk.Context.tokensBelowAll,
    Layout.tokensBelow_dottedName h, List.nil_append]

/-! ## Declarations

By recursion on the declaration. -/

/-- **Declarations have a token for each name that they declare**, in the order of their words. -/
theorem Decl.tokensBelowAll_trees {count : Count} {place : Place} (decl : Decl count place)
    (h : Worded decl.spell) :
    (l.walk .standard).tokensBelowAll parent grandparent (decl.trees lo) = tokensFrom l lo
      decl.spell := by
  induction decl generalizing lo parent grandparent with
  | space name more body ih =>
      obtain ⟨-, h⟩ := worded_cons.1 h
      obtain ⟨hname, h⟩ := worded_append.1 h
      obtain ⟨htext, hmore⟩ := worded_cons.1 hname
      have htext : name ≠ "" := htext
      have hbody := (worded_append.1 (worded_cons.1 h).2).1
      have hleaf : IsDottedName (leaf .identifierName (lo + 1) name) := .part rfl
      have hlength : (divided .dot (declared .namespaceDeclaration .none) (name :: more)).length
          = 2 * more.length + 1 := by
        rw [divided, List.length_cons, length_flatMap_divided]
      -- the tokens of the name, and behind them those of the body
      rw [Decl.trees, Walk.Context.tokensBelowAll,
        tokensBelow_space _ _ (isDottedName_dotted hleaf more),
        partTokens_dotted hmore, partTokens_leaf htext, ih _ _ hbody, Decl.spell, tokensFrom_mark,
        tokensFrom_append,
        hlength, tokensFrom_mark, tokensFrom_closed, divided, tokensFrom_declared]
      simp only [Walk.Context.tokensBelowAll, List.append_nil, List.cons_append, List.nil_append]
      rw [show lo + 1 + (2 * more.length + 1) + 1 = lo + 2 + 2 * more.length + 1 by omega]
  | type ms kind name body ih =>
      obtain ⟨-, h⟩ := worded_append.1 h
      obtain ⟨htext, h⟩ := worded_cons.1 (worded_cons.1 h).2
      have htext : name ≠ "" := htext
      have hbody := (worded_append.1 (worded_cons.1 h).2).1
      rw [Decl.trees, Walk.Context.tokensBelowAll,
        tokensBelow_named _ _ (by cases kind <;> rfl) (by cases kind <;> decide) htext,
        ih _ _ hbody, Decl.spell,
        (silent_modifiers ms).tokensFrom_append, List.length_map, tokensFrom_mark,
        tokensFrom_declared,
        tokensFrom_mark, tokensFrom_closed]
      exact List.append_nil _
  | enum ms name values =>
      obtain ⟨-, h⟩ := worded_append.1 h
      have htext : name ≠ "" := (worded_cons.1 (worded_cons.1 h).2).1
      rw [Decl.trees, Walk.Context.tokensBelowAll, tokensBelow_named _ _ rfl (by decide) htext,
        tokensBelowAll_enumMembers, Decl.spell, (silent_modifiers ms).tokensFrom_append,
        List.length_map,
        tokensFrom_mark, tokensFrom_declared, tokensFrom_mark, tokensFrom_closed,
        (silent_divided _ _).tokensFrom]
      rfl
  | field ms t name more =>
      obtain ⟨-, h⟩ := worded_append.1 h
      have hnames := (worded_append.1 (worded_append.1 h).2).1
      simp only [Decl.trees, Walk.Context.tokensBelowAll, List.append_nil]
      -- neither the field nor the list of its variables has a name of its own
      rw [tokensBelow_unnamed _ _ rfl rfl, Walk.Context.tokensBelowAll,
        tokensBelow_unnamed _ _ rfl rfl, tokensBelowAll_variables _ _ _ _ hnames, Decl.spell,
        (silent_modifiers ms).tokensFrom_append, List.length_map,
        (silent_type t).tokensFrom_append, tokensFrom_closed]
      exact List.append_nil _
  | method ms t name parameters hasBody =>
      obtain ⟨-, h⟩ := worded_append.1 h
      obtain ⟨-, h⟩ := worded_append.1 h
      obtain ⟨htext, h⟩ := worded_cons.1 h
      have htext : name ≠ "" := htext
      have hparameters := (worded_append.1 (worded_cons.1 h).2).1
      -- a body is an empty block or a semicolon, so it declares nothing
      have hbody : ∀ i parent grandparent,
          (l.walk .standard).tokensBelowAll parent grandparent (bodyTrees i hasBody) = [] := by
        intro i parent grandparent
        cases hasBody with
        | true => rfl
        | false => rfl
      simp only [Decl.trees, Walk.Context.tokensBelowAll, List.append_nil]
      rw [tokensBelow_named _ _ rfl (by decide) htext, Walk.Context.tokensBelowAll,
        tokensBelow_unnamed _ _ rfl rfl, tokensBelowAll_parameters _ _ hparameters, hbody,
        List.append_nil, Decl.spell,
        (silent_modifiers ms).tokensFrom_append, List.length_map, (silent_type t).tokensFrom_append,
        tokensFrom_declared, tokensFrom_mark, tokensFrom_append, tokensFrom_mark,
        (silent_body hasBody).tokensFrom,
        List.append_nil]
  | property ms t name =>
      obtain ⟨-, h⟩ := worded_append.1 h
      obtain ⟨-, h⟩ := worded_append.1 h
      have htext : name ≠ "" := (worded_cons.1 h).1
      rw [Decl.trees, Walk.Context.tokensBelowAll,
        tokensBelow_named _ _ rfl (by decide) htext, Decl.spell,
        (silent_modifiers ms).tokensFrom_append, List.length_map, (silent_type t).tokensFrom_append,
        tokensFrom_declared, silent_accessors.tokensFrom]
      rfl
  | nil => rfl
  | cons first rest ihfirst ihrest =>
      obtain ⟨hfirst, hrest⟩ := worded_append.1 h
      rw [Decl.trees, Walk.Context.tokensBelowAll_append, ihfirst _ _ hfirst,
        ihrest _ _ hrest, Decl.spell, tokensFrom_append]

end

end SharpTokens.Program
