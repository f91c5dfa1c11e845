/-!
# Trees

A tree has a label at each node and any number of subtrees, in order. Trees may be deep (a dotted
name is nested as deep as it has parts), so they are gone through with a stack of their own.
-/

namespace SharpTokens

inductive Tree (α : Type) where
  | node (label : α) (children : List (Tree α))
  deriving Repr

namespace Tree

variable {α β : Type}

def label : Tree α → α
  | node a _ => a

def children : Tree α → List (Tree α)
  | node _ ts => ts

mutual

def size : Tree α → Nat
  | node _ ts => 1 + sizes ts

def sizes : List (Tree α) → Nat
  | [] => 0
  | t :: ts => size t + sizes ts

end

@[simp] theorem sizes_append (ts us : List (Tree α)) : sizes (ts ++ us) = sizes ts + sizes us := by
  induction ts with
  | nil => simp [sizes]
  | cons t ts ih => simp [sizes, ih, Nat.add_assoc]

/-! ### Listing the nodes

The list is first given by recursion, as a specification, and then by a loop with a stack. -/

mutual

/-- The labels of a tree, a node before what is below it, each with its depth below `depth`. -/
def listed (depth : Nat) : Tree α → List (Nat × α)
  | node a ts => (depth, a) :: listedAll (depth + 1) ts

def listedAll (depth : Nat) : List (Tree α) → List (Nat × α)
  | [] => []
  | t :: ts => listed depth t ++ listedAll depth ts

end

/-- Puts trees on a stack, all at one depth. -/
def push (depth : Nat) (ts : List (Tree α)) (stack : List (Nat × Tree α)) : List (Nat × Tree α) :=
  ts.map (fun t => (depth, t)) ++ stack

@[simp] theorem sizes_push (depth : Nat) (ts : List (Tree α)) (stack : List (Nat × Tree α)) :
    sizes ((push depth ts stack).map (·.2)) = sizes ts + sizes (stack.map (·.2)) := by
  simp [push, Function.comp_def]

/-- Lists what is on a stack of trees and their depths, after what was found before. -/
def visit (stack : List (Nat × Tree α)) (found : Array (Nat × α)) : Array (Nat × α) :=
  match stack with
  | [] => found
  | (depth, node a ts) :: rest => visit (push (depth + 1) ts rest) (found.push (depth, a))
termination_by sizes (stack.map (·.2))
decreasing_by
  simp only [sizes_push, List.map_cons, sizes, size]
  omega

/-- The labels of a tree with their depths, the root first and at depth zero. -/
def nodes (t : Tree α) : List (Nat × α) := (visit [(0, t)] #[]).toList

end Tree

end SharpTokens
