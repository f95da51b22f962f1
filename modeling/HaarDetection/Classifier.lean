import HaarDetection.Cascade.Basic
import HaarDetection.Geometry.Rect

/-!
# Classifiers

A classifier is a cascade at a scale. It judges windows of an image whose size is that of the
cascade's window times the scale, and larger ones.

* `wholePixels`: a length cut to whole pixels, with some slack for the rounding of a scale.
* `Classifier.setScale`: the classifier at another scale.
* `Classifier.deviation`: the standard deviation of the pixels of a window.
* `Classifier.rejectingStage`: the stage that rejects a window of an image.
-/

namespace HaarDetection

/-- The number of whole pixels in a length. A length short of a whole number by a thousandth
counts as that number. -/
def wholePixels (length : Float32) : UInt32 := (length + 0.001).toUInt32

/-- The size of a window at a scale. -/
def Size.scale (s : Size) (scale : Float32) : Size where
  width := wholePixels (s.width.toFloat32 * scale)
  height := wholePixels (s.height.toFloat32 * scale)

/-- A cascade at a scale. -/
structure Classifier (α : Type) where
  cascade : Cascade α
  scale : Float32
  /-- One over the area of the scaled window, which all weights have been multiplied with. -/
  inverseArea : Float32

namespace Classifier

variable {α : Type} [Scalar α]

/-- One over the area of a window at a scale. -/
def inverseAreaAt (window : Size) (scale : Float32) : Float32 :=
  1 / (window.width.toFloat32 * window.height.toFloat32 * scale * scale)

/-- A cascade scaled, whatever scale it had before. -/
def atScale (cascade : Cascade α) (scale : Float32) : Classifier α :=
  let inverseArea := inverseAreaAt cascade.window scale
  ⟨cascade.rescale scale (Scalar.ofSingle inverseArea), scale, inverseArea⟩

/-- A classifier at scale one. -/
def ofCascade (cascade : Cascade α) : Classifier α := atScale cascade 1

/-- The classifier at another scale. At the scale that it has already it is left as it is. -/
def setScale (c : Classifier α) (scale : Float32) : Classifier α :=
  if scale == c.scale then c else atScale c.cascade scale

/-- The size of the windows that the classifier is scaled for. -/
def windowSize (c : Classifier α) : Size := c.cascade.window.scale c.scale

/-- A window's position in an image, if the window lies in the image and has room for the
classifier. -/
def position? (c : Classifier α) (image : Size) (window : Rect) : Option (Nat × Nat) :=
  if 0 ≤ window.left ∧ 0 ≤ window.top
      ∧ window.right ≤ image.width.toNat ∧ window.bottom ≤ image.height.toNat
      ∧ window.size.Fits c.windowSize then
    some (window.left.toNat, window.top.toNat)
  else none

/-- **The standard deviation of the pixels of a window:** the root of the mean square less the
squared mean. It is one for a window without pixels and where rounding leaves no variance. -/
def deviation (window : Rect) : Probe α α :=
  if window.area = 0 then .done Scalar.one
  else
    let query (kind : QueryKind) : Query :=
      ⟨kind, window.x.toUInt32.toNat, window.y.toUInt32.toNat,
        window.width.toNat, window.height.toNat⟩
    let area : α := Scalar.ofNat window.area
    .ask (query .sum) fun sum =>
      .ask (query .squares) fun squares =>
        let mean := sum / area
        let variance := squares / area - mean * mean
        .done (if Scalar.lt Scalar.zero variance then Scalar.sqrt variance else Scalar.one)

/-- **The stage that rejects a window** of an image of the given size, none if all accept it. A
window outside of the image, or too small, counts as rejected by the first stage. -/
def rejectingStage (c : Classifier α) (image : Size) (window : Rect) : Probe α (Option Nat) :=
  match c.position? image window with
  | none => .done (some 0)
  | some (x, y) =>
    (deviation window).bind fun deviation =>
      Cascade.firstRejecting x y deviation 0 c.cascade.stages

/-- Do all stages accept a window? -/
def accepts (c : Classifier α) (image : Size) (window : Rect) : Probe α Bool :=
  (c.rejectingStage image window).bind fun stage => .done stage.isNone

end Classifier

end HaarDetection
