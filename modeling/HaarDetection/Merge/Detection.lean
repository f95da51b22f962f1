import HaarDetection.Geometry.Rect
import HaarDetection.Number.TotalOrder

/-!
# Detections

A detection is a rectangle in which the object was found, with the scale it was found at and the
number of accepted windows that it stands for.
-/

namespace HaarDetection

/-- An object found in an image. -/
structure Detection where
  rect : Rect
  /-- The scale of the classifier, with all of its bits: the mean scale of no windows is no number. -/
  scale : RawSingle
  /-- How many accepted windows the detection stands for. -/
  neighbors : UInt32
deriving DecidableEq

namespace Detection

/-- The detection of a single accepted window. -/
def ofWindow (rect : Rect) (scale : Float32) : Detection := ⟨rect, .ofSingle scale, 1⟩

/-- The detection with another rectangle. -/
def withRect (d : Detection) (rect : Rect) : Detection := { d with rect }

/-- Does the scale of `a` come before that of `b`, or with it, when scales descend in their total
order? -/
def scaleAtLeast (a b : Detection) : Bool := b.scale.key ≤ a.scale.key

end Detection

end HaarDetection
