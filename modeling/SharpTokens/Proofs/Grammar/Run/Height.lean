import SharpTokens.Grammar.Word

/-!
# How high trees are

The height of a tree counts the nodes on its longest way down. Some nodes form chains that are as
long as a text makes them, and then all nodes of a chain count as one. `Above.dotted` makes a chain
of the parts of a dotted name, which are nested to the left. `Above.chained` makes chains of two
more constructs, those that nest without regard to any limit: a namespace without braces in another
one, and an anonymous method as the default value of a parameter of another one.

`Low` and `LowBut` bound heights where all three are chains.

Bounds on trees say how much higher a tree may be than what the limit leaves room for. Two kinds of
trees may be higher without being deeper in the text: namespaces without braces and anonymous
methods. They are bounded with an extra height that is counted once for a whole chain (`LowBut`).
-/

namespace SharpTokens.Grammar

/-- What a node stands under, as far as chains go. -/
inductive Above where
  | none
  /-- a name with a dot -/
  | dot
  /-- a namespace without braces -/
  | fileScoped
  /-- an anonymous method -/
  | anonymous
  /-- the parameters of an anonymous method -/
  | parameters
  /-- one of them -/
  | parameter
  deriving DecidableEq, Repr

namespace Above

/-- What stands above the nodes below one of some kind. -/
def under (above : Above) : NodeKind → Above
  | .qualifiedName => .dot
  | .fileScopedNamespaceDeclaration => .fileScoped
  | .anonymousMethodExpression => .anonymous
  | .parameterList => if above = .anonymous then .parameters else .none
  | .parameter => if above = .parameters then .parameter else .none
  | _ => .none

/-- How many nodes on the way to a node of some kind are of a chain that goes on there: those of
dotted names. -/
def dotted : Above → NodeKind → Nat
  | .dot, .qualifiedName => 1
  | _, _ => 0

/-- The same, for all chains. From an anonymous method to the next, its parameters and the one with
the value count as well. -/
def chained : Above → NodeKind → Nat
  | .dot, .qualifiedName => 1
  | .fileScoped, .fileScopedNamespaceDeclaration => 1
  | .parameter, .anonymousMethodExpression => 3
  | _, _ => 0

end Above

mutual

/-- The number of nodes on the longest way down a tree, less those of chains. -/
def height (chain : Above → NodeKind → Nat) (above : Above) : Node → Nat
  | .node l ts => heightBelow chain (above.under l.kind) ts + 1

def heightBelow (chain : Above → NodeKind → Nat) (above : Above) : List Node → Nat
  | [] => 0
  | t :: ts => max (height chain above t - chain above t.label.kind) (heightBelow chain above ts)

end

variable {above : Above} {k k' extra : Nat} {kind : NodeKind} {t : Node} {l : Label}
  {ts : List Node}

/-- Trees that are low enough under a node are so together. -/
theorem heightBelow_le
    (h : ∀ t ∈ ts, height Above.chained above t - Above.chained above t.label.kind ≤ k) :
    heightBelow Above.chained above ts ≤ k := by
  induction ts with
  | nil => simp [heightBelow]
  | cons t ts ih =>
      simp only [List.forall_mem_cons] at h
      exact Nat.max_le.2 ⟨h.1, ih h.2⟩

/-! ## Bounds

A node is one higher than what is below it, unless it goes on with a chain. -/

/-- A tree is at most `k` high, wherever it stands. -/
def Low (k : Nat) (t : Node) : Prop := ∀ above, height Above.chained above t ≤ k

/-- A tree is at most `k` high, or `extra` higher if its root is of a kind. -/
def LowBut (kind : NodeKind) (extra k : Nat) (t : Node) : Prop :=
  ∀ above, height Above.chained above t ≤ k + if t.label.kind = kind then extra else 0

theorem Low.mono (h : Low k t) (hk : k ≤ k') : Low k' t := fun above => Nat.le_trans (h above) hk

theorem Low.but (h : Low k t) : LowBut kind extra k t :=
  fun above => Nat.le_trans (h above) (Nat.le_add_right _ _)

/-- The extra height can be counted in. -/
theorem LowBut.low (h : LowBut kind extra k t) (hk : k + extra ≤ k') : Low k' t := by
  intro above
  have := h above
  split at this <;> omega

/-- A tree of the kind may be higher. -/
theorem Low.of_kind (h : Low (k + extra) t) (hkind : t.label.kind = kind) :
    LowBut kind extra k t := by
  intro above
  rw [if_pos hkind]
  exact h above

/-- A node is one higher than what is below it. -/
theorem Low.node (h : ∀ t ∈ ts, Low k t) : Low (k + 1) (.node l ts) := by
  intro above
  apply Nat.succ_le_succ
  apply heightBelow_le
  intro t ht
  exact Nat.le_trans (Nat.sub_le _ _) (h t ht _)

theorem Low.leaf : Low (k + 1) (.node l []) := Low.node (by simp)

/-- A namespace without braces is one higher than what is below it apart from other ones. -/
theorem LowBut.fileScoped (hl : l.kind = .fileScopedNamespaceDeclaration)
    (h : ∀ t ∈ ts, LowBut .fileScopedNamespaceDeclaration 1 k t) : Low (k + 1) (.node l ts) := by
  intro above
  apply Nat.succ_le_succ
  apply heightBelow_le
  intro t ht
  have hlow := h t ht .fileScoped
  rw [hl]
  by_cases hkind : t.label.kind = .fileScopedNamespaceDeclaration
  · simp only [Above.under, hkind, Above.chained, if_true] at hlow ⊢
    omega
  · simp only [Above.under, hkind, if_false] at hlow ⊢
    omega

/-- A name with or without dots is at most two high. -/
def DottedLow (t : Node) : Prop := Low 1 t ∨ t.label.kind = .qualifiedName ∧ Low 2 t

theorem DottedLow.low (h : DottedLow t) : Low 2 t := by
  rcases h with h | h
  · exact h.mono (by omega)
  · exact h.2

/-- One more part of a dotted name makes it no higher. -/
theorem DottedLow.dot {left : Node} {right : Label} (hl : l.kind = .qualifiedName)
    (h : DottedLow left) :
    DottedLow (.node l [left, .node right []]) := by
  refine .inr ⟨hl, fun above => ?_⟩
  apply Nat.succ_le_succ
  apply heightBelow_le
  rw [hl]
  refine List.forall_mem_cons.2 ⟨?_, by simp [height, heightBelow]⟩
  rcases h with h | ⟨hkind, h⟩
  · have := h .dot
    simp only [Above.under]
    omega
  · have := h .dot
    simp only [Above.under, hkind, Above.chained]
    omega

/-- The tree of a parameter, where what is below satisfies a predicate. -/
def Parameter (P : Node → Prop) (t : Node) : Prop :=
  t.label.kind = .parameter ∧ ∀ value ∈ t.children, P value

def Parameters (P : Node → Prop) (t : Node) : Prop :=
  t.label.kind = .parameterList ∧ ∀ parameter ∈ t.children, Parameter P parameter

/-- A list of parameters is two higher than the values in it. -/
theorem Parameters.low (h : Parameters (Low k) t) : Low (k + 2) t := by
  obtain ⟨l, ts⟩ := t
  apply Low.node
  rintro ⟨l', values⟩ hmem
  apply Low.node
  exact (h.2 _ hmem).2

theorem Parameters.mono {P Q : Node → Prop} (h : Parameters P t) (hPQ : ∀ t, P t → Q t) :
    Parameters Q t :=
  ⟨h.1, fun parameter hparameter => ⟨(h.2 parameter hparameter).1, fun value hvalue =>
    hPQ value ((h.2 parameter hparameter).2 value hvalue)⟩⟩

/-- Under an anonymous method, another one that is a default value goes on with a chain. -/
theorem Parameters.height_le (h : Parameters (LowBut .anonymousMethodExpression 3 k) t) :
    height Above.chained .anonymous t ≤ k + 2 := by
  obtain ⟨⟨_, first, past, name, modifiers⟩, parameters⟩ := t
  obtain ⟨rfl, hparameters⟩ := h
  apply Nat.succ_le_succ
  apply heightBelow_le
  rintro ⟨⟨_, first, past, name, modifiers⟩, values⟩ hmem
  obtain ⟨rfl, hvalues⟩ := hparameters _ hmem
  refine Nat.le_trans (Nat.sub_le _ _) (Nat.succ_le_succ (heightBelow_le fun value hvalue => ?_))
  have hlow := hvalues value hvalue .parameter
  by_cases hkind : value.label.kind = .anonymousMethodExpression
  · simp only [Above.under, hkind, Above.chained, if_true] at hlow ⊢
    omega
  · simp only [Above.under, hkind, if_true, if_false] at hlow ⊢
    omega

/-- An anonymous method is one higher than its parameters and its body, apart from other ones among
the default values. -/
theorem LowBut.anonymous {parameters body : List Node} (hl : l.kind = .anonymousMethodExpression)
    (hparameters : ∀ t ∈ parameters, Parameters (LowBut .anonymousMethodExpression 3 k) t)
    (hbody : ∀ t ∈ body, Low (k + 2) t) : Low (k + 3) (.node l (parameters ++ body)) := by
  intro above
  apply Nat.succ_le_succ
  apply heightBelow_le
  rw [hl]
  refine List.forall_mem_append.2 ⟨fun t ht => ?_, fun t ht => ?_⟩
  · exact Nat.le_trans (Nat.sub_le _ _) (hparameters t ht).height_le
  · exact Nat.le_trans (Nat.sub_le _ _) (hbody t ht _)

end SharpTokens.Grammar
