import HaarDetection.Geometry.Size
import HaarDetection.Number.Scalar

/-!
# Rectangles of pixels

Windows and detections are rectangles with a corner anywhere in the plane. A rectangle holds the
pixels from its corner up to, and not including, its right and bottom edges.

* `Rect.intersection?`: the pixels that two rectangles share, as a rectangle.
* `Rect.iou`: the ratio of the pixels shared to the pixels covered by two rectangles.
-/

namespace HaarDetection

/-- A rectangle of pixels, given by its top left corner and its size. -/
structure Rect where
  x : Int32
  y : Int32
  width : UInt32
  height : UInt32
deriving DecidableEq, Repr

namespace Rect

/-- The first column. -/
def left (r : Rect) : Int := r.x.toInt

/-- The first row. -/
def top (r : Rect) : Int := r.y.toInt

/-- The column behind the last one. -/
def right (r : Rect) : Int := r.left + r.width.toNat

/-- The row behind the last one. -/
def bottom (r : Rect) : Int := r.top + r.height.toNat

/-- The width and height. -/
def size (r : Rect) : Size := ⟨r.width, r.height⟩

/-- The number of pixels. -/
def area (r : Rect) : Nat := r.size.pixels

/-- The pixel in the middle, the one after it when a side is even. It wraps around if it is too far
to the right or too far down for 32 bits. -/
def center (r : Rect) : Int32 × Int32 :=
  (r.x + (r.width / 2).toInt32, r.y + (r.height / 2).toInt32)

/-- The rectangle between four edges. -/
def ofEdges (left top right bottom : Int) : Rect :=
  ⟨.ofInt left, .ofInt top, .ofNat (right - left).toNat, .ofNat (bottom - top).toNat⟩

/-- The common pixels of two rectangles, none if there are none. -/
def intersection? (a b : Rect) : Option Rect :=
  let left := Max.max a.left b.left
  let top := Max.max a.top b.top
  let right := Min.min a.right b.right
  let bottom := Min.min a.bottom b.bottom
  if left < right ∧ top < bottom then some (ofEdges left top right bottom) else none

/-- Do two rectangles share a pixel? -/
def intersects (a b : Rect) : Bool := (a.intersection? b).isSome

/-- The number of pixels in both rectangles. -/
def sharedArea (a b : Rect) : Nat := ((a.intersection? b).map area).getD 0

/-- The number of pixels in one rectangle at least, as long as the two areas add up to less than
`2 ^ 64`: they are added in 64 bits, and wrap around from there on. -/
def coveredArea (a b : Rect) : Nat :=
  (UInt64.ofNat a.area + UInt64.ofNat b.area - UInt64.ofNat (a.sharedArea b)).toNat

/-- **Intersection over union.** The shared pixels over the covered ones in single precision, and
zero for two rectangles without any pixel. -/
def iou (a b : Rect) : Float32 :=
  if a.coveredArea b = 0 then 0
  else singleOfNat (a.sharedArea b) / singleOfNat (a.coveredArea b)

/-- The corner, the edges and the size of a rectangle. -/
def text (r : Rect) : String :=
  s!"Rect @ ({r.left},{r.top})-({r.right},{r.bottom})/{r.size.text}"

end Rect

end HaarDetection
