import HaarDetection.Proofs.Cascade.Checks

/-!
# Well-formed definitions

What a definition has to be to describe a cascade, and which cascade it describes.

* `CascadeDefinition.WellFormed`, and the same for its parts: **what a definition has to be.**
* `CascadeDefinition.Describes`, and the same for its parts: **a cascade with the values of a
  definition**, and with nothing scaled.
* `Cascade.unscaled`: a cascade as it was trained.
-/

namespace HaarDetection

/-- **A number in place of a link:** `-1`, or a place from `first` on and before `count`. -/
def LinkBetween (first count : ℕ) (n : ℤ) : Prop := n = -1 ∨ (first : ℤ) ≤ n ∧ n < count

/-- A rectangle with pixels and a finite weight, inside of a window. -/
structure RectDefinition.WellFormed (d : RectDefinition) (tilted : Bool) (window : Size) : Prop where
  width_pos : 0 < d.region.width.toNat
  height_pos : 0 < d.region.height.toNat
  weight_finite : d.weight.isFinite = true
  upright_inside : tilted = false →
    d.region.x.toNat + d.region.width.toNat ≤ window.width.toNat ∧
      d.region.y.toNat + d.region.height.toNat ≤ window.height.toNat
  tilted_inside : tilted = true →
    d.region.height.toNat ≤ d.region.x.toNat ∧
      d.region.x.toNat + d.region.width.toNat ≤ window.width.toNat ∧
      d.region.y.toNat + d.region.width.toNat + d.region.height.toNat ≤ window.height.toNat

/-- A feature of two or three rectangles. -/
structure FeatureDefinition.WellFormed (d : FeatureDefinition) (window : Size) : Prop where
  count : d.rects.length = 2 ∨ d.rects.length = 3
  rects : ∀ r ∈ d.rects, r.WellFormed d.tilted window

/-- A node at a place of a tree of `size` nodes, with children behind it. -/
structure NodeDefinition.WellFormed (d : NodeDefinition) (window : Size) (place size : ℕ) : Prop where
  left : LinkBetween (place + 1) size d.leftNode
  right : LinkBetween (place + 1) size d.rightNode
  feature : d.feature.WellFormed window

/-- A stage of a cascade of `count` stages. -/
structure StageDefinition.WellFormed (d : StageDefinition) (window : Size) (count : ℕ) : Prop where
  threshold_finite : d.threshold.isFinite = true
  trees_ne : d.trees ≠ []
  tree_ne : ∀ t ∈ d.trees, t ≠ []
  nodes : ∀ t ∈ d.trees, ∀ (i : ℕ) (n : NodeDefinition), t[i]? = some n → n.WellFormed window i t.length
  parent : LinkBetween 0 count d.parent
  next : LinkBetween 0 count d.next

/-- **A well-formed definition.** -/
structure CascadeDefinition.WellFormed (d : CascadeDefinition) : Prop where
  width_pos : 0 < d.window.width.toNat
  height_pos : 0 < d.window.height.toNat
  stages_ne : d.stages ≠ []
  stages : ∀ s ∈ d.stages, s.WellFormed d.window d.stages.length

/-- A rectangle with the values of a definition, not scaled yet. -/
structure RectDefinition.Describes (d : RectDefinition) (r : FeatureRect Float) : Prop where
  region : r.region = d.region
  weight : r.weight = d.weight
  scaledRegion : r.scaledRegion = d.region
  scaledWeight : r.scaledWeight = d.weight

/-- A feature with the values of a definition. -/
structure FeatureDefinition.Describes (d : FeatureDefinition) (f : Feature Float) : Prop where
  tilted : f.tilted = d.tilted
  rects : List.Forall₂ RectDefinition.Describes d.rects f.rects

/-- The link that a number stands for: none for `-1`. -/
def LinkIs (n : ℤ) (l : Option ℕ) : Prop := n = -1 ∧ l = none ∨ 0 ≤ n ∧ l = some n.toNat

/-- A node with the values of a definition. -/
structure NodeDefinition.Describes (d : NodeDefinition) (n : Node Float) : Prop where
  threshold : n.threshold = d.threshold
  leftValue : n.left.value = d.leftValue
  rightValue : n.right.value = d.rightValue
  leftNode : LinkIs d.leftNode n.left.child
  rightNode : LinkIs d.rightNode n.right.child
  feature : d.feature.Describes n.feature

/-- A stage with the values of a definition. -/
structure StageDefinition.Describes (d : StageDefinition) (s : Stage Float) : Prop where
  threshold : s.threshold = d.threshold
  parent : LinkIs d.parent s.parent
  next : LinkIs d.next s.next
  trees : List.Forall₂ (List.Forall₂ NodeDefinition.Describes) d.trees s.trees

/-- **A cascade with the values of a definition**, not scaled yet. -/
structure CascadeDefinition.Describes (d : CascadeDefinition) (c : Cascade Float) : Prop where
  window : c.window = d.window
  stages : List.Forall₂ StageDefinition.Describes d.stages c.stages

section Unscaled

variable {α : Type}

/-- A rectangle as it was trained. -/
def FeatureRect.unscaled (r : FeatureRect α) : FeatureRect α :=
  { r with scaledRegion := r.region, scaledWeight := r.weight }

/-- A feature as it was trained. -/
def Feature.unscaled (f : Feature α) : Feature α :=
  { f with reference := f.reference.unscaled, others := f.others.map (·.unscaled) }

/-- A node as it was trained. -/
def Node.unscaled (n : Node α) : Node α := { n with feature := n.feature.unscaled }

/-- A stage as it was trained. -/
def Stage.unscaled (st : Stage α) : Stage α :=
  { st with trees := st.trees.map fun tree => tree.map (·.unscaled) }

/-- **A cascade as it was trained,** whatever scale it has. -/
def Cascade.unscaled (c : Cascade α) : Cascade α := { c with stages := c.stages.map (·.unscaled) }

end Unscaled

end HaarDetection
