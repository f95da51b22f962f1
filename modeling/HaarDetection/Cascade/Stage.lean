import HaarDetection.Cascade.Tree

/-!
# Stages

A stage lets its trees vote on a window: the window passes when the sum of their values reaches
the threshold of the stage. The threshold is multiplied with the standard deviation of the pixels
of the window, as features grow with the contrast of what they look at.

* `Stage.build`: a stage of well-formed trees.
* `Stage.sum`, `Stage.classify`: the vote of a stage.
-/

namespace HaarDetection

variable {α : Type}

/-- A stage of a cascade. The links to other stages only describe how it was trained. -/
structure Stage (α : Type) where
  threshold : α
  parent : Option Nat
  next : Option Nat
  trees : List (Tree α)
deriving BEq, DecidableEq, Repr

namespace Stage

/-- The first of some trees that is not well formed, with its place. -/
def checkTrees : Nat → List (Tree α) → Except CascadeError Unit
  | _, [] => .ok ()
  | index, tree :: rest =>
    match tree.check with
    | .error cause => .error (.inTree index cause)
    | .ok () => checkTrees (index + 1) rest

/-- All nodes of a stage, tree by tree. -/
def nodes (s : Stage α) : List (Node α) := s.trees.flatten

/-- All features of a stage, tree by tree. -/
def features (s : Stage α) : List (Feature α) := s.nodes.map (·.feature)

/-- The links of a stage to other stages. -/
def links (s : Stage α) : List Nat := s.parent.toList ++ s.next.toList

/-- The stage with the given links. -/
def withLinks (s : Stage α) (parent next : Option Nat) : Stage α := { s with parent, next }

variable [Scalar α]

/-- A stage without links. Its threshold has to be finite, and its trees well formed. -/
def build (threshold : α) (trees : List (Tree α)) : Except CascadeError (Stage α) :=
  if !Scalar.isFinite threshold then .error .thresholdNotFinite
  else if trees.isEmpty then .error .noTrees
  else do
    checkTrees 0 trees
    .ok ⟨threshold, none, none, trees⟩

/-- The stage with all features at another scale. -/
def rescale (scale : Float32) (inverseArea : α) (s : Stage α) : Stage α :=
  { s with trees := s.trees.map (·.rescale scale inverseArea) }

/-- Evaluates some trees and adds their values to `total`. -/
def addVotes (x y : Nat) : List (Tree α) → α → Probe α α
  | [], total => .done total
  | tree :: rest, total =>
    (tree.evaluate x y).bind fun value => addVotes x y rest (total + value)

/-- The sum of the values of all trees for a window at `(x, y)`. -/
def sum (s : Stage α) (x y : Nat) : Probe α α := addVotes x y s.trees Scalar.zero

/-- **Does the stage accept a window** at `(x, y)` whose pixels have the given deviation? -/
def classify (s : Stage α) (x y : Nat) (deviation : α) : Probe α Bool :=
  (s.sum x y).bind fun value => .done (Scalar.le (s.threshold * deviation) value)

end Stage

end HaarDetection
