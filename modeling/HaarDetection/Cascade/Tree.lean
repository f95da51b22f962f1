import HaarDetection.Cascade.Feature

/-!
# Decision trees

A node of a tree compares the value of its feature with a threshold and takes its left branch when
the value is smaller, its right branch otherwise. A branch has a value and may lead to another
node; the value of the branch at which the walk ends is the value of the tree.

Nodes are kept in a list and lead to each other by their places in it. A tree is well formed when
all children come after their parents, so that every walk ends.

* `Tree.check`: nothing, or the first link of a tree that leads backwards or out of it.
* `Tree.evaluate`: the value of a tree at a position of an image.
-/

namespace HaarDetection

variable {α : Type}

/-- One of the two ways to leave a node. -/
structure Branch (α : Type) where
  /-- The value of the tree if the walk ends here. -/
  value : α
  /-- The place of the node where the walk goes on. -/
  child : Option Nat
deriving BEq, DecidableEq, Repr

/-- A node of a decision tree. -/
structure Node (α : Type) where
  threshold : α
  left : Branch α
  right : Branch α
  feature : Feature α
deriving BEq, DecidableEq, Repr

/-- A decision tree, as the list of its nodes. The walk begins at the first one. -/
abbrev Tree (α : Type) := List (Node α)

namespace Node

/-- The nodes that a node leads to, the left one first. -/
def children (n : Node α) : List Nat := n.left.child.toList ++ n.right.child.toList

/-- The node with its feature at another scale. -/
def rescale [Scalar α] (scale : Float32) (inverseArea : α) (n : Node α) : Node α :=
  { n with feature := n.feature.rescale scale inverseArea }

/-- The branch that a node takes for a window at `(x, y)`. -/
def choose [Scalar α] (n : Node α) (x y : Nat) : Probe α (Branch α) :=
  (n.feature.sum x y).bind fun value =>
    .done (if Scalar.lt value n.threshold then n.left else n.right)

/-- The value of the branch that a node takes for a window at `(x, y)`. -/
def classify [Scalar α] (n : Node α) (x y : Nat) : Probe α α :=
  (n.choose x y).bind fun branch => .done branch.value

end Node

namespace Tree

/-- May a node at place `parent` of a tree of `size` nodes lead to the node at `child`? -/
def linkAllowed (parent size child : Nat) : Bool := parent < child && child < size

/-- The first forbidden link of the nodes from place `index` on. -/
def firstBadLink? (size : Nat) : Nat → List (Node α) → Option (Nat × Nat)
  | _, [] => none
  | index, n :: rest =>
    match n.children.find? fun child => !linkAllowed index size child with
    | some child => some (index, child)
    | none => firstBadLink? size (index + 1) rest

/-- **A tree has to have nodes, and children that come after their parents.** -/
def check (tree : Tree α) : Except CascadeError Unit :=
  if tree.isEmpty then .error .emptyTree
  else
    match firstBadLink? tree.length 0 tree with
    | some (node, child) => .error (.childLink node child tree.length)
    | none => .ok ()

variable [Scalar α]

/-- The walk through a tree from the node at `index`, through at most `steps` nodes. -/
def walk (tree : Tree α) (x y : Nat) : (steps index : Nat) → Probe α α
  | 0, _ => .fail .treeLink
  | steps + 1, index =>
    match tree[index]? with
    | none => .fail .treeLink
    | some node =>
      (node.choose x y).bind fun branch =>
        match branch.child with
        | none => .done branch.value
        | some child => walk tree x y steps child

/-- **The value of a tree** for a window at `(x, y)`. A well-formed tree is left after as many
steps as it has nodes. -/
def evaluate (tree : Tree α) (x y : Nat) : Probe α α := walk tree x y tree.length 0

/-- The tree with all features at another scale. -/
def rescale (scale : Float32) (inverseArea : α) (tree : Tree α) : Tree α :=
  tree.map (·.rescale scale inverseArea)

end Tree

end HaarDetection
