import SharpTokens.Syntax.Tree
import SharpTokens.Token.Classify

/-!
# The tokens of a tree

A syntax tree is gone through from left to right, a node before what is below it. A namespace gives
a token for each part of its name, any other declaration one for its name. The modifiers of a
variable are those of the field or local declaration around it, two levels up.

The labels of the tree may be anything that can be seen as a declaration.
-/

namespace SharpTokens

namespace Tree

variable {α : Type}

theorem sizes_filter_le (p : Tree α → Bool) (ts : List (Tree α)) :
    sizes (ts.filter p) ≤ sizes ts := by
  induction ts with
  | nil => simp [sizes]
  | cons t ts ih =>
    simp only [List.filter_cons]
    split <;> simp only [sizes] <;> omega

end Tree

namespace Walk

variable {α : Type}

/-- How the labels of a tree are seen, and the legend that tokens refer to. -/
structure Context (α : Type) where
  legend : Legend
  view : α → Declared

namespace Context

variable (c : Context α)

def kind (t : Tree α) : NodeKind := (c.view t.label).kind

/-! ### Names of namespaces

The parts of a dotted name are nested to the left, so a loop with a stack comes to them from left to
right. -/

def names (ts : List (Tree α)) : List (Tree α) := ts.filter fun t => (c.kind t).isName

theorem sizes_names_le (ts : List (Tree α)) : Tree.sizes (c.names ts) ≤ Tree.sizes ts :=
  Tree.sizes_filter_le _ ts

def partToken? (label : α) : Option Token :=
  (c.view label).identifier.bind fun name => c.legend.token? name .namespaceDeclaration .none

/-- The tokens of the parts of the names on a stack, from left to right, after those found
before. -/
def parts (stack : List (Tree α)) (found : Array Token) : Array Token :=
  match stack with
  | [] => found
  | .node label children :: rest =>
    match (c.view label).kind with
    | .qualifiedName => parts (c.names children ++ rest) found
    | .identifierName => parts rest (found ++ (c.partToken? label).toList)
    | _ => parts rest found
termination_by Tree.sizes stack
decreasing_by
  · have := c.sizes_names_le children
    simp only [Tree.sizes_append, Tree.sizes, Tree.size]
    omega
  · simp only [Tree.sizes, Tree.size]
    omega
  · simp only [Tree.sizes, Tree.size]
    omega

/-- The tokens of a namespace, whose name is the first of its children that is one. -/
def namespaceTokens (children : List (Tree α)) : List Token :=
  match (c.names children).head? with
  | some name => (c.parts [name] #[]).toList
  | none => []

/-! ### Declarations

A variable takes its modifiers from two levels above; any other declaration has its own. -/

/-- The modifiers that count for a declaration, given the one two levels up. -/
def modifiersOf (d : Declared) (grandparent : Option α) : Modifiers :=
  if d.kind = .variableDeclarator then
    match grandparent.map c.view with
    | some owner => if owner.kind.isVariableOwner then owner.modifiers else .none
    | none => .none
  else d.modifiers

/-- The tokens of a node itself, given what it is below. -/
def ownTokens (label : α) (children : List (Tree α)) (grandparent : Option α) : List Token :=
  let d := c.view label
  if d.kind.isNamespace then c.namespaceTokens children
  else if d.kind.isDeclaration then
    (d.identifier.bind fun name => c.legend.token? name d.kind (c.modifiersOf d grandparent)).toList
  else []

/-! ### Trees

The loop over a stack is what runs. A recursion over the tree with the same tokens stands in the
theory of walks. -/

/-- A tree that is yet to be gone through, and the labels one and two levels above it. -/
structure Visit (α : Type) where
  tree : Tree α
  parent : Option α
  grandparent : Option α

def push (label : α) (parent : Option α) (children : List (Tree α)) (stack : List (Visit α)) :
    List (Visit α) :=
  children.map (fun t => ⟨t, some label, parent⟩) ++ stack

@[simp] theorem sizes_push (label : α) (parent : Option α) (children : List (Tree α))
    (stack : List (Visit α)) :
    Tree.sizes ((push label parent children stack).map (·.tree)) =
      Tree.sizes children + Tree.sizes (stack.map (·.tree)) := by
  simp [push, Function.comp_def]

def collect (stack : List (Visit α)) (found : Array Token) : Array Token :=
  match stack with
  | [] => found
  | ⟨.node label children, parent, grandparent⟩ :: rest =>
    collect (push label parent children rest) (found ++ c.ownTokens label children grandparent)
termination_by Tree.sizes (stack.map (·.tree))
decreasing_by
  simp only [sizes_push, List.map_cons, Tree.sizes, Tree.size]
  omega

/-- The tokens of a tree, in reading order. Those at one position stay in the order of the tree. -/
def tokens (t : Tree α) : List Token :=
  (c.collect [⟨t, none, none⟩] #[]).toList.mergeSort Token.le

end Context

end Walk

end SharpTokens
