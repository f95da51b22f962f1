import HaarDetection.Cascade.Basic

/-!
# Definitions of cascades

A definition describes a cascade by plain values, as they are kept in a document, with a negative
one in place of a missing link. Nothing in it has been checked.

* `CascadeDefinition.build`: the cascade that a definition describes, if it describes one.
* `CascadeDefinition.ofCascade`: the definition of a cascade.
-/

namespace HaarDetection

/-- A rectangle and its weight. -/
structure RectDefinition where
  region : Region
  weight : Float
deriving DecidableEq

/-- The rectangles of a feature. -/
structure FeatureDefinition where
  tilted : Bool
  rects : List RectDefinition
deriving DecidableEq

/-- A node of a tree. -/
structure NodeDefinition where
  threshold : Float
  leftValue : Float
  rightValue : Float
  leftNode : Int
  rightNode : Int
  feature : FeatureDefinition
deriving DecidableEq

/-- A stage and its trees. -/
structure StageDefinition where
  threshold : Float
  parent : Int
  next : Int
  trees : List (List NodeDefinition)
deriving DecidableEq

/-- A cascade. -/
structure CascadeDefinition where
  window : Size
  stages : List StageDefinition
deriving DecidableEq

/-- The link that a number stands for: none for `-1`. -/
def linkOfInt (link : Int) : Except CascadeError (Option Nat) :=
  if link = -1 then .ok none
  else if 0 ≤ link then .ok (some link.toNat)
  else .error (.linkNumber link)

/-- The number that stands for a link. -/
def intOfLink : Option Nat → Int
  | none => -1
  | some place => place

namespace RectDefinition

/-- The rectangle that a definition describes. -/
def build (d : RectDefinition) : Except CascadeError (FeatureRect Float) :=
  FeatureRect.build d.region d.weight

/-- The definition of a rectangle, which leaves out what it was scaled to. -/
def ofRect (r : FeatureRect Float) : RectDefinition := ⟨r.region, r.weight⟩

end RectDefinition

namespace FeatureDefinition

/-- The feature that a definition describes. -/
def build (d : FeatureDefinition) : Except CascadeError (Feature Float) := do
  Feature.build d.tilted (← d.rects.mapM RectDefinition.build)

/-- The definition of a feature. -/
def ofFeature (f : Feature Float) : FeatureDefinition :=
  ⟨f.tilted, f.rects.map RectDefinition.ofRect⟩

end FeatureDefinition

namespace NodeDefinition

/-- The node that a definition describes. -/
def build (d : NodeDefinition) : Except CascadeError (Node Float) := do
  let feature ← d.feature.build
  let left ← linkOfInt d.leftNode
  let right ← linkOfInt d.rightNode
  .ok ⟨d.threshold, ⟨d.leftValue, left⟩, ⟨d.rightValue, right⟩, feature⟩

/-- The definition of a node. -/
def ofNode (n : Node Float) : NodeDefinition where
  threshold := n.threshold
  leftValue := n.left.value
  rightValue := n.right.value
  leftNode := intOfLink n.left.child
  rightNode := intOfLink n.right.child
  feature := .ofFeature n.feature

end NodeDefinition

namespace StageDefinition

/-- The stage that a definition describes. -/
def build (d : StageDefinition) : Except CascadeError (Stage Float) := do
  let trees ← d.trees.mapM fun nodes => nodes.mapM NodeDefinition.build
  let stage ← Stage.build d.threshold trees
  let parent ← linkOfInt d.parent
  let next ← linkOfInt d.next
  .ok (stage.withLinks parent next)

/-- The definition of a stage. -/
def ofStage (s : Stage Float) : StageDefinition where
  threshold := s.threshold
  parent := intOfLink s.parent
  next := intOfLink s.next
  trees := s.trees.map fun nodes => nodes.map NodeDefinition.ofNode

/-- The stages that some definitions describe, the first of which has place `index`. -/
def buildAll : (index : Nat) → List StageDefinition → Except CascadeError (List (Stage Float))
  | _, [] => .ok []
  | index, d :: rest =>
    match d.build with
    | .error cause => .error (.inStage index cause)
    | .ok stage => (buildAll (index + 1) rest).map (stage :: ·)

end StageDefinition

namespace CascadeDefinition

/-- **The cascade that a definition describes**, or the first thing wrong with it. -/
def build (d : CascadeDefinition) : Except CascadeError (Cascade Float) := do
  Cascade.build d.window (← StageDefinition.buildAll 0 d.stages)

/-- The definition of a cascade. -/
def ofCascade (c : Cascade Float) : CascadeDefinition :=
  ⟨c.window, c.stages.map StageDefinition.ofStage⟩

end CascadeDefinition

end HaarDetection
