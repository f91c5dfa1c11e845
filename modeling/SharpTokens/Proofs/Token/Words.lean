import Mathlib.Data.List.Forall2
import SharpTokens.SourceFile
import SharpTokens.Proofs.Grammar.Placement
import SharpTokens.Proofs.Token.Walk

/-!
# Tokens point at words

The tokens of a tree that lies over words point at words that are names in it, each at one of its
own and in the order of the words (`tokensBelow_follow`).

A token is made for a name that is there, and the name is a word. That tokens are in the order of
words is the order of names in the tree, as long as no name is used twice; the only names that could
be are those of namespaces, whose parts are nodes of their own and have no tokens as such
(`tokensBelow_dottedName`).
-/

namespace SharpTokens

open Text Grammar

/-- A token is where a word is and as long. -/
def Token.PointsAt (l : Layout) (ws : Words) (t : Token) (w : Nat) : Prop :=
  t.position = l.position w ∧ t.length = saturate (width (ws.text w).toList)

/-- Tokens point at some of the given words, each at one of its own and in their order. -/
def Follow (l : Layout) (ws : Words) (ts : List Token) (names : List Nat) : Prop :=
  ∃ found, found.Sublist names ∧ List.Forall₂ (Token.PointsAt l ws) ts found

namespace Follow

variable {l : Layout} {ws : Words} {ts us : List Token} {names more : List Nat}

theorem nil : Follow l ws [] names := ⟨[], List.nil_sublist names, .nil⟩

/-- Tokens of two trees follow the names of both. -/
theorem append (h : Follow l ws ts names) (h' : Follow l ws us more) :
    Follow l ws (ts ++ us) (names ++ more) := by
  obtain ⟨found, hfound, hpoints⟩ := h
  obtain ⟨found', hfound', hpoints'⟩ := h'
  exact ⟨found ++ found', hfound.append hfound', List.rel_append hpoints hpoints'⟩

theorem mono (h : Follow l ws ts names) (hmore : names.Sublist more) : Follow l ws ts more := by
  obtain ⟨found, hfound, hpoints⟩ := h
  exact ⟨found, hfound.trans hmore, hpoints⟩

/-- The token of a name points at its word. -/
theorem name {lo hi : Nat} {name : Option Name} (h : NameIn ws lo hi name) (legend : Legend)
    (kind : NodeKind) (m : Modifiers) :
    Follow l ws ((name.map l.identifier).bind fun i => legend.token? i kind m).toList
      (name.bind Name.word?).toList := by
  cases h with
  | none _ => exact nil
  | missing _ _ => exact nil
  | @present w _ _ _ =>
      show Follow l ws (legend.token? (l.identifier (.present w (ws.text w))) kind m).toList [w]
      rw [Legend.token?]
      split
      · exact nil
      · exact ⟨[w], List.Sublist.refl _, .cons ⟨rfl, rfl⟩ .nil⟩

end Follow

/-! ## Names of namespaces

A dotted name is made of names nested to the left, so its parts come from left to right. -/

variable {l : Layout} {ws : Words} {legend : Legend} {lo hi : Nat}

/-- The walk through a tree over words, whose names are where the layout says. -/
abbrev Layout.walk (l : Layout) (legend : Legend) : Walk.Context Label := ⟨legend, l.declared⟩

namespace Layout

theorem walk_kind (label : Label) (ts : List Node) :
    (l.walk legend).kind (.node label ts) = label.kind := rfl

/-- The own tokens of a node that is neither a namespace nor a declaration. -/
theorem ownTokens_eq_nil {label : Label} (hspace : label.kind.isNamespace = false)
    (hdeclares : label.kind.isDeclaration = false) (ts : List Node) (grandparent : Option Label) :
    (l.walk legend).ownTokens label ts grandparent = [] := by
  show (if label.kind.isNamespace = true then _ else if label.kind.isDeclaration = true then _
      else []) = _
  rw [hspace, hdeclares]
  rfl

/-- A dotted name is one to the walk. -/
theorem isName_of_isDottedName {t : Node} (h : IsDottedName t) :
    ((l.walk legend).kind t).isName = true := by
  cases h with
  | part hkind =>
      rw [walk_kind, hkind]
      rfl
  | dot hkind _ _ _ =>
      rw [walk_kind, hkind]
      rfl

/-- A dotted name has no tokens of its own: the namespace gives those of its parts. -/
theorem tokensBelow_dottedName {t : Node} (h : IsDottedName t) (parent grandparent : Option Label) :
    (l.walk legend).tokensBelow parent grandparent t = [] := by
  induction h generalizing parent grandparent with
  | part hkind =>
      rw [Walk.Context.tokensBelow, ownTokens_eq_nil (by rw [hkind]; rfl) (by rw [hkind]; rfl)]
      rfl
  | dot hkind _ _ _ ihleft ihright =>
      rw [Walk.Context.tokensBelow, ownTokens_eq_nil (by rw [hkind]; rfl) (by rw [hkind]; rfl)]
      simp only [Walk.Context.tokensBelowAll, ihleft, ihright, List.append_nil]

/-- The parts of a name point at its words, in their order. -/
theorem partTokens_follow {t : Node} (hdotted : IsDottedName t) (h : Placed ws lo hi [t]) :
    Follow l ws ((l.walk legend).partTokens t) (nameWords t) := by
  induction hdotted generalizing lo hi with
  | part hkind =>
      obtain ⟨hname, -, -⟩ := h.first
      rw [Walk.Context.partTokens]
      simp only [declared, hkind, nameWords, nameWordsAll_nil, List.append_nil]
      exact Follow.name hname legend .namespaceDeclaration .none
  | @dot label left right hkind hname hleft hright ihleft ihright =>
      obtain ⟨-, hbelow, -⟩ := h.first
      obtain ⟨mid, hl, hr⟩ := hbelow.split
      rw [Walk.Context.partTokens]
      simp only [declared, hkind, hname, Walk.Context.partTokensAll, nameWords, nameWordsAll_cons,
        nameWordsAll_nil, List.append_nil, Option.bind_none, Option.toList_none, List.nil_append]
      exact (ihleft hl).append (ihright hr)

/-! ## Trees

By recursion on the tree, with the names of a node before those below it. -/

/-- A node's own token points at its name. -/
theorem ownTokens_follow {label : Label} {n m : Nat} (hname : NameIn ws n m label.name)
    (hspace : label.kind.isNamespace = false) (ts : List Node) (grandparent : Option Label) :
    Follow l ws ((l.walk legend).ownTokens label ts grandparent)
      (label.name.bind Name.word?).toList := by
  show Follow l ws (if label.kind.isNamespace = true then _
      else if label.kind.isDeclaration = true then _
    else []) _
  rw [hspace]
  simp only [Bool.false_eq_true, if_false]
  split
  · exact Follow.name hname legend label.kind _
  · exact Follow.nil

/-- The tokens of several trees, one tree after another. -/
theorem tokensBelowAll_follow {ts : List Node} (h : Placed ws lo hi ts)
    (parent grandparent : Option Label) (hts : ∀ t ∈ ts, ∀ lo hi, Placed ws lo hi [t] →
      Follow l ws ((l.walk legend).tokensBelow parent grandparent t) (nameWords t)) :
    Follow l ws ((l.walk legend).tokensBelowAll parent grandparent ts) (nameWordsAll ts) := by
  induction ts generalizing lo with
  | nil => exact Follow.nil
  | cons t ts ih =>
      obtain ⟨mid, hfirst, hrest⟩ := h.split
      rw [Walk.Context.tokensBelowAll, nameWordsAll_cons]
      exact (hts t List.mem_cons_self lo mid hfirst).append
        (ih hrest fun t ht => hts t (List.mem_cons_of_mem _ ht))

/-- **Tokens follow the words of their names.** -/
theorem tokensBelow_follow (t : Node) (h : Placed ws lo hi [t])
    (parent grandparent : Option Label) :
    Follow l ws ((l.walk legend).tokensBelow parent grandparent t) (nameWords t) := by
  induction t using Tree.induct_below generalizing lo hi parent grandparent with
  | node label below ih =>
      obtain ⟨hname, hbelow, hsuits⟩ := h.first
      rw [Walk.Context.tokensBelow, nameWords]
      cases hkind : label.kind.isNamespace with
      | false =>
          refine (ownTokens_follow hname hkind below grandparent).append ?_
          exact tokensBelowAll_follow hbelow _ _ fun t ht lo hi h => ih t ht h _ _
      | true =>
          -- the parts of the name are the namespace's, and its members come after them
          obtain ⟨name, members, rfl, hdotted⟩ := hsuits.named hkind
          obtain ⟨mid, hfirst, hrest⟩ := hbelow.split
          have hown : (l.walk legend).ownTokens label (name :: members) grandparent
              = (l.walk legend).partTokens name := by
            show (if label.kind.isNamespace = true then _ else _) = _
            rw [if_pos hkind]
            exact (l.walk legend).namespaceTokens_cons members (isName_of_isDottedName hdotted)
          rw [hown, Walk.Context.tokensBelowAll, tokensBelow_dottedName hdotted, List.nil_append,
            nameWordsAll_cons]
          refine ((partTokens_follow hdotted hfirst).append ?_).mono (List.sublist_append_right _ _)
          exact tokensBelowAll_follow hrest _ _ fun t ht lo hi h =>
            ih t (List.mem_cons_of_mem _ ht) h _ _

/-- The root has no token, so those of a text are those of what is below it. -/
theorem tokensBelow_unit_follow {ts : List Node} (past : Nat) (h : Placed ws lo hi ts) :
    Follow l ws
      ((l.walk legend).tokensBelow none none (.node ⟨.compilationUnit, 0, past, none, .none⟩ ts))
      (nameWordsAll ts) := by
  rw [Walk.Context.tokensBelow, ownTokens_eq_nil rfl rfl, List.nil_append]
  exact tokensBelowAll_follow h _ _ fun t _ _ _ h => tokensBelow_follow t h _ _

end Layout

end SharpTokens
