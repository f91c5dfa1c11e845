import SharpTokens.Proofs.Token.Deltas
import SharpTokens.Proofs.Token.Walk

/-!
# The tokens of a tree are its declarations in order

A tree has its declarations by recursion: those of a node, then those of each subtree in turn. The
parts of a dotted name are found in the same way. A walk with its stacks finds the tokens of just
these (`tokensBelow_eq`), and puts them into reading order such that those at one position stay as
they are (`tokens_isStableSort`). There is only one way to do that (`Token.IsStableSort.eq`). All
tokens are in terms of the legend (`tokens_covers`).

What a tree declares is said without a legend and without positions: which names, of what kinds,
with which modifiers, in the order of the tree. A legend turns each into a token, or into none if
the name is missing. The walk does both at once; that it finds the same is shown for a node itself
and then by recursion.
-/

namespace SharpTokens

open Text

/-! ## Stable sorting

That those at one position stay as they are is said with filters: at each position, the tokens
before and after sorting are the same list. -/

namespace Token

theorem le_refl (t : Token) : t.le t = true := by simpa using le_total t t

/-- Tokens that are put into reading order, those at one position in the order that they had. -/
structure IsStableSort (found sorted : List Token) : Prop where
  ordered : sorted.Pairwise fun s t => s.le t = true
  stable : ∀ p : Position, sorted.filter (·.position = p) = found.filter (·.position = p)

/-- Lists with the same tokens at each position have the same tokens. -/
theorem mem_of_filter_eq {ss ts : List Token}
    (h : ∀ p : Position, ss.filter (·.position = p) = ts.filter (·.position = p)) {t : Token}
    (ht : t ∈ ss) : t ∈ ts := by
  have hmem : t ∈ ss.filter (·.position = t.position) := List.mem_filter.2 ⟨ht, decide_eq_true rfl⟩
  rw [h] at hmem
  exact (List.mem_filter.1 hmem).1

/-- **A stable sort is determined by the order before.** -/
theorem IsStableSort.eq {found ss ts : List Token} (hs : IsStableSort found ss)
    (ht : IsStableSort found ts) :
    ss = ts := by
  obtain ⟨hss, hs⟩ := hs
  obtain ⟨hts, ht⟩ := ht
  have h : ∀ p : Position, ss.filter (·.position = p) = ts.filter (·.position = p) :=
    fun p => (hs p).trans (ht p).symm
  clear hs ht
  induction ss generalizing ts with
  | nil =>
      cases ts with
      | nil => rfl
      | cons t ts => cases mem_of_filter_eq (fun p => (h p).symm) List.mem_cons_self
  | cons s ss ih =>
      cases ts with
      | nil => cases mem_of_filter_eq h List.mem_cons_self
      | cons t ts =>
          rw [List.pairwise_cons] at hss hts
          -- each of the first two is not behind the other, so both are first at one position
          have hst : s.le t = true := by
            rcases List.mem_cons.1 (mem_of_filter_eq (fun p => (h p).symm)
              List.mem_cons_self) with rfl | hmem
            · exact le_refl _
            · exact hss.1 t hmem
          have hts' : t.le s = true := by
            rcases List.mem_cons.1 (mem_of_filter_eq h List.mem_cons_self) with rfl | hmem
            · exact le_refl _
            · exact hts.1 s hmem
          have hposition : s.position = t.position := Position.le_antisymm hst hts'
          have hfirst := h s.position
          simp only [List.filter_cons, ← hposition, decide_true, if_true, List.cons.injEq] at hfirst
          obtain ⟨rfl, -⟩ := hfirst
          congr 1
          refine ih hss.2 hts.2 fun p => ?_
          have hp := h p
          rw [List.filter_cons, List.filter_cons] at hp
          split at hp
          · exact (List.cons.inj hp).2
          · exact hp

/-- The sort of the standard library is one. -/
theorem isStableSort_mergeSort (found : List Token) : IsStableSort found (found.mergeSort le) := by
  refine ⟨List.pairwise_mergeSort le_trans le_total found, fun p => ?_⟩
  have hsub : (found.filter (·.position = p)).Sublist (found.mergeSort le) := by
    refine List.sublist_mergeSort le_trans le_total ?_ List.filter_sublist
    refine List.pairwise_of_forall_mem_list fun s hs t ht => ?_
    have hs : s.position = p := of_decide_eq_true (List.mem_filter.1 hs).2
    have ht : t.position = p := of_decide_eq_true (List.mem_filter.1 ht).2
    rw [le, hs, ← ht]
    exact le_refl t
  have hfilter := hsub.filter (·.position = p)
  rw [List.filter_filter] at hfilter
  simp only [Bool.and_self] at hfilter
  exact (hfilter.eq_of_length ((List.mergeSort_perm found le).filter _).length_eq.symm).symm

end Token

/-! ## Declarations

A type that a legend lacks gets its last slot, so that every declaration has a token. -/

/-- A name that is declared, as what, and with which modifiers. -/
structure Declaration where
  name : Identifier
  kind : NodeKind
  modifiers : Modifiers

def Declaration.part (name : Identifier) : Declaration := ⟨name, .namespaceDeclaration, .none⟩

namespace Legend

variable (l : Legend)

def slot (kind : NodeKind) : Nat :=
  if kind.tokenType.index.toNat < l.types.length then kind.tokenType.index.toNat
    else l.types.length - 1

def tokenOf (d : Declaration) : Token :=
  ⟨d.name.start.line, d.name.start.character, saturate (width d.name.text.toList),
    (l.slot d.kind).toUInt32,
    d.modifiers.mask &&& l.modifierMask⟩

/-- The tokens of those of some declarations whose names are there. -/
def tokensOf (ds : List Declaration) : List Token :=
  (ds.filter fun d => !d.name.isAbsent).map l.tokenOf

/-- Declarations have their tokens one by one. -/
theorem tokensOf_append (ds es : List Declaration) :
    l.tokensOf (ds ++ es) = l.tokensOf ds ++ l.tokensOf es := by
  rw [tokensOf, List.filter_append, List.map_append, tokensOf, tokensOf]

/-- A slot is a word. -/
theorem toNat_slot (kind : NodeKind) : (l.slot kind).toUInt32.toNat = l.slot kind := by
  have hle : l.slot kind ≤ kind.tokenType.index.toNat := by
    unfold slot
    split
    · exact Nat.le_refl _
    · omega
  exact UInt32.toNat_ofNat_of_lt' (Nat.lt_of_le_of_lt hle kind.tokenType.index.toNat_lt_size)

/-- The slot as the walk computes it. -/
theorem slot_eq (kind : NodeKind) :
    (l.slot kind).toUInt32 = if l.containsType kind.tokenType.index then kind.tokenType.index
      else l.fallbackType := by
  rw [slot, containsType]
  by_cases h : kind.tokenType.index.toNat < l.types.length
  · simp only [h, if_true, decide_true]
    exact UInt32.ofNat_toNat
  · simp only [h, if_false, decide_false]
    rfl

def Covers (l : Legend) (t : Token) : Prop :=
  l.containsType t.type = true ∧ l.containsModifiers t.modifiers = true

/-- A token that is made with a legend is in its terms. -/
theorem tokenOf_covers (d : Declaration) : l.Covers (l.tokenOf d) := by
  constructor
  · have hpos := List.length_pos_iff.2 l.validTypes.nonempty
    show decide ((l.slot d.kind).toUInt32.toNat < l.types.length) = true
    rw [toNat_slot, slot, decide_eq_true_eq]
    split
    · assumption
    · exact Nat.sub_lt hpos Nat.one_pos
  · show (d.modifiers.mask &&& l.modifierMask &&& ~~~l.modifierMask == 0) = true
    rw [UInt32.and_assoc, UInt32.and_not_self, UInt32.and_zero]
    rfl

theorem tokensOf_covers (ds : List Declaration) : ∀ token ∈ l.tokensOf ds, l.Covers token := by
  intro token htoken
  obtain ⟨d, -, rfl⟩ := List.mem_map.1 htoken
  exact l.tokenOf_covers d

/-- The token of a name, as a list of at most one. -/
theorem token?_eq (name : Identifier) (kind : NodeKind) (modifiers : Modifiers) :
    (l.token? name kind modifiers).toList = l.tokensOf [⟨name, kind, modifiers⟩] := by
  rw [token?, tokensOf]
  cases h : name.isAbsent with
  | true => simp [h]
  | false => simp [h, tokenOf, slot_eq]

/-- A name that may be lacking. -/
theorem token?_bind_eq (identifier : Option Identifier) (kind : NodeKind) (modifiers : Modifiers) :
    (identifier.bind fun name => l.token? name kind modifiers).toList =
      l.tokensOf (identifier.toList.map fun name => ⟨name, kind, modifiers⟩) := by
  cases identifier with
  | none => rfl
  | some name => exact l.token?_eq name kind modifiers

end Legend

namespace Walk.Context

variable {α : Type} (c : Context α)

/-! ### What a tree declares

By recursion on the tree, with the labels one and two levels above as parameters, since a variable
takes its modifiers from there. -/

mutual

def segments : Tree α → List Identifier
  | .node label children =>
    match (c.view label).kind with
    | .qualifiedName => segmentsAll children
    | .identifierName => (c.view label).identifier.toList
    | _ => []

def segmentsAll : List (Tree α) → List Identifier
  | [] => []
  | t :: ts => segments t ++ segmentsAll ts

end

/-- The modifiers of a variable: those of what is two levels above it, if that declares fields or
local variables. -/
def ownerModifiers : Option α → Modifiers
  | none => .none
  | some owner =>
    match (c.view owner).kind with
    | .fieldDeclaration | .localDeclarationStatement => (c.view owner).modifiers
    | _ => .none

/-- What a namespace declares: each part of its name, which is the first of its children that is
one. -/
def declaredParts (children : List (Tree α)) : List Declaration :=
  match children.find? fun t => (c.kind t).isName with
  | some name => (c.segments name).map .part
  | none => []

/-- What a node itself declares, given the label two levels above it. -/
def declaredAt (label : α) (children : List (Tree α)) (grandparent : Option α) : List Declaration :=
  let d := c.view label
  match d.kind with
  | .namespaceDeclaration | .fileScopedNamespaceDeclaration => c.declaredParts children
  | .variableDeclarator =>
      d.identifier.toList.map fun name => ⟨name, d.kind, c.ownerModifiers grandparent⟩
  | .classDeclaration | .interfaceDeclaration | .enumDeclaration | .structDeclaration |
      .methodDeclaration
  | .propertyDeclaration | .parameter =>
      d.identifier.toList.map fun name => ⟨name, d.kind, d.modifiers⟩
  | _ => []

mutual

/-- What a tree below given labels declares, a node before what is below it. -/
def declarations (parent grandparent : Option α) : Tree α → List Declaration
  | .node label children =>
      c.declaredAt label children grandparent ++ declarationsAll (some label) parent children

def declarationsAll (parent grandparent : Option α) : List (Tree α) → List Declaration
  | [] => []
  | t :: ts => declarations parent grandparent t ++ declarationsAll parent grandparent ts

end

/-! ## A walk finds the declarations

One lemma for each part of the walk: names of namespaces, a node's own tokens, and trees. -/

theorem partTokensAll_eq (ts : List (Tree α))
    (h : ∀ t ∈ ts, c.partTokens t = c.legend.tokensOf ((c.segments t).map .part)) :
    c.partTokensAll ts = c.legend.tokensOf ((c.segmentsAll ts).map .part) := by
  induction ts with
  | nil => rfl
  | cons t ts ih =>
      rw [partTokensAll, segmentsAll, List.map_append, Legend.tokensOf_append,
        h t List.mem_cons_self, ih fun t ht => h t (List.mem_cons_of_mem _ ht)]

/-- The tokens of a name are those of its segments. -/
theorem partTokens_eq (t : Tree α) :
    c.partTokens t = c.legend.tokensOf ((c.segments t).map .part) := by
  induction t using Tree.induct_below with
  | node label below ih =>
      rw [partTokens, segments]
      cases (c.view label).kind
      case qualifiedName => exact c.partTokensAll_eq below ih
      case identifierName => exact c.legend.token?_bind_eq _ _ _
      all_goals rfl

/-- The name of a namespace is the first of its children that is one. -/
theorem namespaceTokens_eq (children : List (Tree α)) :
    c.namespaceTokens children = c.legend.tokensOf (c.declaredParts children) := by
  rw [namespaceTokens, names, List.head?_filter, declaredParts]
  cases children.find? fun t => (c.kind t).isName with
  | none => rfl
  | some name =>
      show (c.parts [name] #[]).toList = c.legend.tokensOf ((c.segments name).map .part)
      rw [c.parts_eq, partTokensAll, partTokensAll, List.append_nil, partTokens_eq]
      rfl

/-- A variable has the modifiers of the declaration two levels above it. -/
theorem modifiersOf_variable {d : Declared} (h : d.kind = .variableDeclarator)
    (grandparent : Option α) :
    c.modifiersOf d grandparent = c.ownerModifiers grandparent := by
  rw [modifiersOf, if_pos h]
  cases grandparent with
  | none => rfl
  | some owner =>
      show (if (c.view owner).kind.isVariableOwner then _ else _) = c.ownerModifiers (some owner)
      rw [ownerModifiers]
      cases (c.view owner).kind
      all_goals rfl

/-- A node gives the tokens of what is declared at it. -/
theorem ownTokens_eq (label : α) (children : List (Tree α)) (grandparent : Option α) :
    c.ownTokens label children grandparent = c.legend.tokensOf
      (c.declaredAt label children grandparent) := by
  simp only [ownTokens, declaredAt]
  cases hkind : (c.view label).kind
  case namespaceDeclaration | fileScopedNamespaceDeclaration => exact c.namespaceTokens_eq children
  case variableDeclarator =>
    rw [← c.modifiersOf_variable hkind]
    exact c.legend.token?_bind_eq _ _ _
  case classDeclaration | interfaceDeclaration | enumDeclaration | structDeclaration |
    methodDeclaration
      | propertyDeclaration | parameter =>
    have hown : c.modifiersOf (c.view label) grandparent = (c.view label).modifiers := by
      rw [modifiersOf, hkind]
      rfl
    rw [hown]
    exact c.legend.token?_bind_eq _ _ _
  all_goals rfl

theorem tokensBelowAll_eq (ts : List (Tree α)) (parent grandparent : Option α)
    (h : ∀ t ∈ ts, ∀ parent grandparent,
      c.tokensBelow parent grandparent t = c.legend.tokensOf
      (c.declarations parent grandparent t)) :
    c.tokensBelowAll parent grandparent ts = c.legend.tokensOf
      (c.declarationsAll parent grandparent ts) := by
  induction ts with
  | nil => rfl
  | cons t ts ih =>
      rw [tokensBelowAll, declarationsAll, Legend.tokensOf_append, h t List.mem_cons_self,
        ih fun t ht => h t (List.mem_cons_of_mem _ ht)]

/-- **A walk finds the declarations of its tree**, those whose names are there. -/
theorem tokensBelow_eq (t : Tree α) (parent grandparent : Option α) :
    c.tokensBelow parent grandparent t = c.legend.tokensOf
      (c.declarations parent grandparent t) := by
  induction t using Tree.induct_below generalizing parent grandparent with
  | node label below ih =>
      rw [tokensBelow, declarations, Legend.tokensOf_append, ownTokens_eq,
        c.tokensBelowAll_eq below _ _ ih]

/-! ### In reading order

Nested declarations may start at one position, so that the sort is stable matters. -/

/-- The tokens of a tree are those of its declarations, sorted. -/
theorem tokens_isStableSort (t : Tree α) :
    Token.IsStableSort (c.legend.tokensOf (c.declarations none none t)) (c.tokens t) := by
  rw [tokens, collect_root, tokensBelow_eq]
  exact Token.isStableSort_mergeSort _

/-- Every token of a tree is in terms of the legend. -/
theorem tokens_covers (t : Tree α) : ∀ token ∈ c.tokens t, c.legend.Covers token := by
  intro token htoken
  rw [tokens, List.mem_mergeSort, collect_root, tokensBelow_eq] at htoken
  exact c.legend.tokensOf_covers _ token htoken

/-- **The tokens of a tree are those of its declarations**, in reading order and otherwise in the
order of the tree. All are in terms of the legend, where a type that is not in it has the last
slot. -/
theorem tokens_follow_declarations (t : Tree α) :
    (∀ tokens, Token.IsStableSort (c.legend.tokensOf (c.declarations none none t)) tokens ↔
      tokens = c.tokens t) ∧
    (c.tokens t).Pairwise (fun s t => s.le t = true) ∧
    (∀ token ∈ c.tokens t,
      c.legend.containsType token.type = true ∧ c.legend.containsModifiers token.modifiers = true) ∧
    ∀ d : Declaration, (c.legend.tokenOf d).type.toNat =
      if d.kind.tokenType.index.toNat < c.legend.types.length then d.kind.tokenType.index.toNat
      else c.legend.types.length - 1 := by
  have hsort := c.tokens_isStableSort t
  refine ⟨fun tokens => ⟨fun h => h.eq hsort, ?_⟩, hsort.ordered, c.tokens_covers t, fun d => ?_⟩
  · rintro rfl
    exact hsort
  · exact c.legend.toNat_slot d.kind

end Walk.Context

/-- A static field before the namespace `A.B`, in whose name a part is missing. -/
def fieldBeforeNamespace : Tree Declared :=
  .node ⟨.compilationUnit, none, .none⟩ [
    .node ⟨.fieldDeclaration, none, ⟨true, false, false⟩⟩ [
      .node ⟨.variableDeclaration, none, .none⟩ [
        .node ⟨.variableDeclarator, some ⟨"x", ⟨2, 4⟩, false⟩, .none⟩ []]],
    .node ⟨.fileScopedNamespaceDeclaration, none, .none⟩ [
      .node ⟨.qualifiedName, none, .none⟩ [
        .node ⟨.identifierName, some ⟨"A", ⟨0, 10⟩, false⟩, .none⟩ [],
        .node ⟨.identifierName, some ⟨"", ⟨0, 12⟩, true⟩, .none⟩ [],
        .node ⟨.identifierName, some ⟨"B", ⟨0, 13⟩, false⟩, .none⟩ []]]]

/-- The field has its modifiers from two levels up and comes last, and the missing part has no
token. -/
theorem tokens_follow_declarations_field :
    Walk.Context.tokens ⟨.standard, id⟩ fieldBeforeNamespace =
    [⟨0, 10, 1, 8, 1⟩, ⟨0, 13, 1, 8, 1⟩, ⟨2, 4, 1, 6, 3⟩] := by
  obtain ⟨hsort, -⟩ := Walk.Context.tokens_follow_declarations ⟨.standard, id⟩ fieldBeforeNamespace
  have hfound : Legend.standard.tokensOf
      (Walk.Context.declarations ⟨.standard, id⟩ none none fieldBeforeNamespace) =
      [⟨2, 4, 1, 6, 3⟩, ⟨0, 10, 1, 8, 1⟩, ⟨0, 13, 1, 8, 1⟩] := by decide
  rw [hfound] at hsort
  refine ((hsort _).1 ⟨by decide, fun p => ?_⟩).symm
  -- the field is the only one at its position, so it may change places with the others
  by_cases hp : (⟨2, 4⟩ : Position) = p
  · subst hp
    decide
  · simp [List.filter_cons, Token.position, hp]

end SharpTokens
