import SharpTokens.Token.Walk

/-!
# A walk follows its tree

The walk keeps a stack of its own. What it finds is said here by recursion on the tree: a node's own
tokens, then those of its subtrees in turn (`collect_eq`), and the parts of a dotted name from left
to right (`parts_eq`).

Two loops with a stack are turned into recursion, each by its own steps. The subtrees of a node are
put on the stack in front of what is there, so they are gone through before it, in their order.
-/

namespace SharpTokens

/-- What holds of a tree if it holds of all that are right below it, holds of every tree. -/
theorem Tree.induct_below {α : Type} {P : Tree α → Prop}
    (node : ∀ label below, (∀ t ∈ below, P t) → P (.node label below)) (t : Tree α) : P t := by
  match t with
  | .node label below => exact node label below fun t _ => induct_below node t

namespace Walk.Context

variable {α : Type} (c : Context α)

/-! ## Names of namespaces

Only names are followed, and what is below anything else is left out. That can be done when subtrees
are put on the stack or when they are taken off it. -/

mutual

/-- The tokens of the parts of a name, from left to right. -/
def partTokens : Tree α → List Token
  | .node label children =>
    match (c.view label).kind with
    | .qualifiedName => partTokensAll children
    | .identifierName => (c.partToken? label).toList
    | _ => []

def partTokensAll : List (Tree α) → List Token
  | [] => []
  | t :: ts => partTokens t ++ partTokensAll ts

end

@[simp] theorem partTokensAll_append (ts us : List (Tree α)) :
    c.partTokensAll (ts ++ us) = c.partTokensAll ts ++ c.partTokensAll us := by
  induction ts with
  | nil => rfl
  | cons t ts ih => simp only [List.cons_append, partTokensAll, ih, List.append_assoc]

/-- What is not a name has no parts. -/
theorem partTokens_eq_nil {t : Tree α} (h : (c.kind t).isName = false) : c.partTokens t = [] := by
  obtain ⟨label, children⟩ := t
  rw [partTokens]
  split
  · rename_i hkind
    rw [kind, Tree.label, hkind] at h
    cases h
  · rename_i hkind
    rw [kind, Tree.label, hkind] at h
    cases h
  · rfl

/-- What is no name has no parts. -/
theorem partTokensAll_names (ts : List (Tree α)) :
    c.partTokensAll (c.names ts) = c.partTokensAll ts := by
  induction ts with
  | nil => rfl
  | cons t ts ih =>
      rw [names, List.filter_cons]
      split
      · rw [partTokensAll, partTokensAll]
        exact congrArg _ ih
      · rename_i h
        rw [partTokensAll, c.partTokens_eq_nil (Bool.not_eq_true _ ▸ h)]
        exact ih

/-- The loop over a stack of names finds the tokens of each, from the first on. -/
theorem parts_eq (stack : List (Tree α)) (found : Array Token) :
    (c.parts stack found).toList = found.toList ++ c.partTokensAll stack := by
  fun_induction c.parts stack found with
  | case1 found => exact (List.append_nil _).symm
  | case2 found label children rest hkind ih =>
      rw [ih, partTokensAll_append, partTokensAll_names, partTokensAll, partTokens, hkind]
  | case3 found label children rest hkind ih =>
      rw [ih, Array.toList_appendList, partTokensAll, partTokens, hkind, List.append_assoc]
  | case4 found label children rest hqualified hpart ih =>
      rw [ih, partTokensAll, partTokens]
      split
      · exact absurd ‹_› hqualified
      · exact absurd ‹_› hpart
      · rfl

/-- The tokens of a namespace are those of its name, where that is the first of its children. -/
theorem namespaceTokens_cons {name : Tree α} (rest : List (Tree α))
    (h : (c.kind name).isName = true) :
    c.namespaceTokens (name :: rest) = c.partTokens name := by
  have hhead : (c.names (name :: rest)).head? = some name := by
    rw [names, List.filter_cons, if_pos h]
    rfl
  rw [namespaceTokens, hhead]
  show (c.parts [name] #[]).toList = _
  rw [c.parts_eq, partTokensAll, partTokensAll, List.append_nil]
  rfl

/-! ## Trees

A tree on the stack comes with the labels one and two levels above it. -/

mutual

/-- The tokens of a tree below given labels, a node's before those of what is below it. -/
def tokensBelow (parent grandparent : Option α) : Tree α → List Token
  | .node label children =>
    c.ownTokens label children grandparent ++ tokensBelowAll (some label) parent children

def tokensBelowAll (parent grandparent : Option α) : List (Tree α) → List Token
  | [] => []
  | t :: ts => tokensBelow parent grandparent t ++ tokensBelowAll parent grandparent ts

end

@[simp] theorem tokensBelowAll_append (parent grandparent : Option α) (ts us : List (Tree α)) :
    c.tokensBelowAll parent grandparent (ts ++ us)
      = c.tokensBelowAll parent grandparent ts ++ c.tokensBelowAll parent grandparent us := by
  induction ts with
  | nil => rfl
  | cons t ts ih => simp only [List.cons_append, tokensBelowAll, ih, List.append_assoc]

/-- What the subtrees of a node give, when they come off the stack. -/
theorem flatMap_tokensBelow (parent grandparent : Option α) (ts : List (Tree α)) :
    (ts.map fun t => (⟨t, parent, grandparent⟩ : Visit α)).flatMap
        (fun v => c.tokensBelow v.parent v.grandparent v.tree)
      = c.tokensBelowAll parent grandparent ts := by
  induction ts with
  | nil => rfl
  | cons t ts ih => rw [List.map_cons, List.flatMap_cons, ih, tokensBelowAll]

/-- The walk finds the tokens of the trees on its stack, from the top down. -/
theorem collect_eq (stack : List (Visit α)) (found : Array Token) :
    (c.collect stack found).toList
      = found.toList ++ stack.flatMap fun v => c.tokensBelow v.parent v.grandparent v.tree := by
  fun_induction c.collect stack found with
  | case1 found => exact (List.append_nil _).symm
  | case2 found label children parent grandparent rest ih =>
      rw [ih, push, List.flatMap_append, c.flatMap_tokensBelow, List.flatMap_cons, tokensBelow,
        Array.toList_appendList]
      simp only [List.append_assoc]

/-- The tokens that a walk through a tree finds, before they are put in order. -/
theorem collect_root (t : Tree α) :
    (c.collect [⟨t, none, none⟩] #[]).toList = c.tokensBelow none none t := by
  rw [c.collect_eq, List.flatMap_singleton]
  rfl

end Walk.Context

end SharpTokens
