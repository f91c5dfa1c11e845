import SharpTokens.Syntax.Tree

/-!
# What holds at every node of a tree

`Tree.Everywhere` says that every node of a tree has a property, together with what is right below
it. The nodes of a tree are listed with a stack of their own (`Tree.nodes`); what is listed is what
recursion on the tree finds, a node before what is below it (`Tree.nodes_eq`), so a property that
holds everywhere holds of all that is listed (`Tree.Everywhere.of_mem_nodes`).

Properties of nodes are proved by recursion on the tree, and used of the list. The list is made with
a stack so that deep trees need no deep recursion; that it lists the same is shown once, here.
-/

namespace SharpTokens.Tree

variable {α : Type} {P Q : α → List (Tree α) → Prop} {t : Tree α}

/-- A property of a label and of what is below it that every node of a tree has. -/
inductive Everywhere (P : α → List (Tree α) → Prop) : Tree α → Prop
  | node {label : α} {below : List (Tree α)} : P label below → (∀ t ∈ below, Everywhere P t) →
      Everywhere P (.node label below)

/-- What follows at each node from what holds there holds everywhere. -/
theorem Everywhere.imp (h : t.Everywhere P) (hPQ : ∀ label below, P label below → Q label below) :
    t.Everywhere Q := by
  induction h with
  | node hlabel _ ih => exact .node (hPQ _ _ hlabel) ih

/-! ## Listed nodes

A stack lists what its trees list, one tree after another. -/

theorem listedAll_eq (depth : Nat) (ts : List (Tree α)) :
    listedAll depth ts = ts.flatMap (listed depth) := by
  induction ts with
  | nil => rfl
  | cons t ts ih => rw [listedAll, ih, List.flatMap_cons]

/-- The walk lists the trees of its stack one after another. -/
theorem toList_visit (stack : List (Nat × Tree α)) (found : Array (Nat × α)) :
    (visit stack found).toList = found.toList ++ stack.flatMap fun entry =>
      listed entry.1 entry.2 := by
  fun_induction visit stack found with
  | case1 found => simp
  | case2 found depth a ts rest ih =>
      rw [ih, push, List.flatMap_append, List.flatMap_map, ← listedAll_eq,
        List.flatMap_cons, listed]
      simp

/-- **The nodes of a tree are those that recursion on it lists.** -/
theorem nodes_eq (t : Tree α) : t.nodes = listed 0 t := by
  simp [nodes, toList_visit]

/-- What holds everywhere holds at each node that is listed. -/
theorem Everywhere.of_mem_listed (h : t.Everywhere P) {depth : Nat} {n : Nat × α}
    (hn : n ∈ listed depth t) :
    ∃ below, P n.2 below := by
  induction h generalizing depth with
  | @node label below hlabel _ ih =>
      rw [listed, listedAll_eq] at hn
      rcases List.mem_cons.1 hn with rfl | hn
      · exact ⟨below, hlabel⟩
      · obtain ⟨t, ht, hn⟩ := List.mem_flatMap.1 hn
        exact ih t ht hn

theorem Everywhere.of_mem_nodes (h : t.Everywhere P) {n : Nat × α} (hn : n ∈ t.nodes) :
    ∃ below, P n.2 below :=
  h.of_mem_listed (nodes_eq t ▸ hn)

end SharpTokens.Tree
