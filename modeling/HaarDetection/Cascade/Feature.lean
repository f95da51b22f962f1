import HaarDetection.Cascade.Error
import HaarDetection.Image.Probe
import HaarDetection.Number.Scalar

/-!
# Haar features

A feature compares the pixels of two or three rectangles: it is the sum of their pixel sums, each
times a weight. It is trained for one window size. For a window of another size the rectangles are
scaled, and as scaling rounds their sides to whole pixels, the weight of the first rectangle is
set anew so that the weighted areas cancel out.

* `Region.scale`: a scaled region.
* `FeatureRect`: a rectangle of a feature, as trained and as scaled.
* `Feature.build`: a feature from its rectangles, if there are two or three.
* `Feature.rescale`: a feature at another scale.
* `Feature.sum`: the value of a feature at a position of an image.
-/

namespace HaarDetection

/-- A length in pixels times a scale, cut to whole pixels. -/
def scaledLength (length : UInt32) (scale : Float32) : UInt32 :=
  (length.toFloat32 * scale).toUInt32

/-- The region at another scale. Its sides keep a pixel at least. -/
def Region.scale (r : Region) (scale : Float32) : Region where
  x := scaledLength r.x scale
  y := scaledLength r.y scale
  width := max 1 (scaledLength r.width scale)
  height := max 1 (scaledLength r.height scale)

variable {α : Type}

/-- A rectangle of a feature: what it was trained as, and what it is at the current scale. -/
structure FeatureRect (α : Type) where
  region : Region
  weight : α
  scaledRegion : Region
  scaledWeight : α
deriving BEq, DecidableEq, Repr

namespace FeatureRect

variable [Scalar α]

/-- A rectangle as trained, which is also what it is before it is scaled. -/
def build (region : Region) (weight : α) : Except CascadeError (FeatureRect α) :=
  if region.width = 0 ∨ region.height = 0 then .error (.emptyRectangle region)
  else if Scalar.isFinite weight then .ok ⟨region, weight, region, weight⟩
  else .error .weightNotFinite

/-- The area at the current scale. -/
def area (r : FeatureRect α) : α :=
  Scalar.ofNat r.scaledRegion.width.toNat * Scalar.ofNat r.scaledRegion.height.toNat

/-- The rectangle with its region at another scale, its weight unchanged. -/
def rescaleRegion (scale : Float32) (r : FeatureRect α) : FeatureRect α :=
  { r with scaledRegion := r.region.scale scale }

/-- The query for the pixels of the rectangle, for a window at `(x, y)`. -/
def query (r : FeatureRect α) (tilted : Bool) (x y : Nat) : Query where
  kind := if tilted then .tilted else .sum
  x := x + r.scaledRegion.x.toNat
  y := y + r.scaledRegion.y.toNat
  width := r.scaledRegion.width.toNat
  height := r.scaledRegion.height.toNat

/-- The weighted sum of the pixels of the rectangle, for a window at `(x, y)`. -/
def weightedSum (r : FeatureRect α) (tilted : Bool) (x y : Nat) : Probe α α :=
  let q := r.query tilted x y
  if q.x < UInt32.size ∧ q.y < UInt32.size then
    .ask q fun value => .done (value * r.scaledWeight)
  else .fail .coordinateOverflow

end FeatureRect

/-- A feature: the rectangle whose weight balances the others, and the others. -/
structure Feature (α : Type) where
  tilted : Bool
  reference : FeatureRect α
  others : List (FeatureRect α)
deriving BEq, DecidableEq, Repr

namespace Feature

/-- All rectangles of a feature, in order. -/
def rects (f : Feature α) : List (FeatureRect α) := f.reference :: f.others

/-- A feature of two or three rectangles. -/
def build (tilted : Bool) (rects : List (FeatureRect α)) : Except CascadeError (Feature α) :=
  match rects with
  | [] => .error (.rectangleCount 0)
  | reference :: others =>
    if others.length = 1 ∨ others.length = 2 then .ok ⟨tilted, reference, others⟩
    else .error (.rectangleCount rects.length)

variable [Scalar α]

/-- The weighted area of some rectangles at the current scale. -/
def weightedArea (rects : List (FeatureRect α)) : α :=
  Scalar.sum (rects.map fun r => r.area * r.scaledWeight)

/-- **The feature at another scale.** All regions are scaled. The weights of all but the first
rectangle are multiplied with `inverseArea`, and the first one gets the weight that makes the
weighted areas cancel out. -/
def rescale (scale : Float32) (inverseArea : α) (f : Feature α) : Feature α :=
  let others := f.others.map fun r =>
    { r.rescaleRegion scale with scaledWeight := r.weight * inverseArea }
  let reference := f.reference.rescaleRegion scale
  { f with
    others
    reference := { reference with scaledWeight := -weightedArea others / reference.area } }

/-- Asks for the weighted sums of some rectangles and adds them to `total`. -/
def addSums (tilted : Bool) (x y : Nat) : List (FeatureRect α) → α → Probe α α
  | [], total => .done total
  | r :: rest, total =>
    (r.weightedSum tilted x y).bind fun value => addSums tilted x y rest (total + value)

/-- The value of a feature for a window at `(x, y)`. -/
def sum (f : Feature α) (x y : Nat) : Probe α α :=
  addSums f.tilted x y f.rects Scalar.zero

end Feature

end HaarDetection
