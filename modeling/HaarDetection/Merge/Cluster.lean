import HaarDetection.Merge.Detection

/-!
# Averaging clusters

The second way to merge detections. An object is found in several windows next to each other, at
several scales, which form a cluster around it. The largest window left starts a cluster and takes
all windows in that overlap it enough; a cluster is replaced by its mean.

* `clusters`: the clusters of a list of detections, seeds first.
* `neighborCount`: the number of windows that a cluster stands for.
* `Mean.ofCluster`: the mean rectangle of a cluster, each window counted as often as it has
  neighbors.
* `Grouping.merge`: one detection per cluster that has enough neighbors.
-/

namespace HaarDetection

/-- Splits a list into clusters: the first element, with all others near to it, and then the
clusters of the rest. Within a cluster the seed comes first and the others in reverse. -/
def clusters {β : Type} (near : β → β → Bool) : List β → List (List β)
  | [] => []
  | seed :: rest =>
    (seed :: (rest.filter (near seed)).reverse)
      :: clusters near (rest.filter fun other => !near seed other)
termination_by items => items.length
decreasing_by
  simp only [List.length_unattach, List.length_cons, Nat.lt_succ_iff]
  exact Nat.le_trans (List.length_filter_le _ _) (by simp)

/-- The number of windows that a cluster stands for, added up in 32 bits: from `2 ^ 32` windows on it
wraps around. -/
def neighborCount (cluster : List Detection) : UInt32 := cluster.foldl (· + ·.neighbors) 0

/-- The sum of some numbers over detections, each counted as often as it has neighbors. -/
def weightedTotal {α : Type} [Scalar α] (value : Detection → α) (cluster : List Detection) : α :=
  Scalar.sum (cluster.map fun d => value d * Scalar.ofNat d.neighbors.toNat)

/-- The result of an operation, none if it is indeterminate, as zero by zero is. An operand that
is undefined from the start is passed on, the first one if both are. -/
def combine {α : Type} [Scalar α] (op : α → α → α) (a b : α) : Option α :=
  if Scalar.isUndefined a then some a
  else if Scalar.isUndefined b then some b
  else
    let result := op a b
    if Scalar.isUndefined result then none else some result

/-- The sum of the scales of some detections, each counted as often as it has neighbors. It is
indeterminate as soon as one addend is. -/
def addScales {α : Type} [Scalar α] : List Detection → α → Option α
  | [], total => some total
  | d :: rest, total =>
    if Scalar.isUndefined total then some total
    else do
      let scale ← d.scale.single?
      let term ← combine (· * ·) (Scalar.ofSingle scale) (Scalar.ofNat d.neighbors.toNat)
      addScales rest (← combine (· + ·) total term)

/-- The mean of a cluster before it is rounded. -/
structure Mean (α : Type) where
  x : α
  y : α
  width : α
  height : α
  scale : Option α

namespace Mean

variable {α : Type} [Scalar α]

/-- The mean of a cluster, each detection counted as often as it has neighbors. -/
def ofCluster (cluster : List Detection) : Mean α :=
  let count : α := Scalar.ofNat (neighborCount cluster).toNat
  let mean (value : Rect → Int) : α :=
    weightedTotal (fun d => Scalar.ofInt (value d.rect)) cluster / count
  { x := mean Rect.left
    y := mean Rect.top
    width := mean (·.width.toNat)
    height := mean (·.height.toNat)
    scale := (addScales cluster Scalar.zero).bind fun total => combine (· / ·) total count }

/-- The mean rectangle, each coordinate rounded on its own, halves away from zero. -/
def rect (m : Mean α) : Rect where
  x := .ofInt (Scalar.nearestWithin (-0x80000000) 0x7fffffff m.x)
  y := .ofInt (Scalar.nearestWithin (-0x80000000) 0x7fffffff m.y)
  width := .ofNat (Scalar.nearestWithin 0 0xffffffff m.width).toNat
  height := .ofNat (Scalar.nearestWithin 0 0xffffffff m.height).toNat

end Mean

/-- The detection that stands for a cluster. -/
def mergeCluster (cluster : List Detection) : Detection :=
  let mean : Mean Float := .ofCluster cluster
  ⟨mean.rect, .ofSingle? (mean.scale.map narrow), neighborCount cluster⟩

/-- How detections are clustered. -/
structure Grouping where
  /-- The intersection over union from which a detection belongs to a cluster. -/
  minIou : Float32 := 0.3
  /-- The number of neighbors from which a cluster is reported. -/
  minNeighbors : UInt32 := 1
deriving DecidableEq

namespace Grouping

/-- Does a detection belong to the cluster that another one has started? -/
def near (g : Grouping) (seed other : Detection) : Bool :=
  g.minIou.le (seed.rect.iou other.rect)

/-- The clusters of some detections, that of the largest scale first. Detections of equal scale
keep their order. -/
def clustersOf (g : Grouping) (detections : List Detection) : List (List Detection) :=
  clusters g.near (detections.mergeSort Detection.scaleAtLeast)

/-- **One detection per cluster**, for the clusters with enough neighbors. -/
def merge (g : Grouping) (detections : List Detection) : List Detection :=
  ((g.clustersOf detections).filter fun c => g.minNeighbors ≤ neighborCount c).map mergeCluster

end Grouping

end HaarDetection
