import HaarDetection.Decimal.Layout
import HaarDetection.Geometry.Size

/-!
# Faults

A *fault* is what stops a computation that was asked for something outside of its contract, such
as the sum of pixels beyond the image. A caller that keeps to the contracts meets none.
-/

namespace HaarDetection

/-- A request outside of a contract. -/
inductive Fault
  /-- A coordinate leaves the 32 bits that coordinates have. -/
  | coordinateOverflow
  /-- A sum was looked up past the end of its table. -/
  | outsideTable
  /-- The corners of a rectangle beyond the image give a sum below zero. -/
  | negativeSum
  /-- A tilted rectangle whose left corner lies left of the image. -/
  | leftOfImage
  /-- The number of pixels is not that of the size. -/
  | pixelCount (size : Size)
  /-- A factor between scales that is not a finite number above one. -/
  | scalingFactor (factor : Float32)
  /-- A tree without the node that was to be visited, or with links that lead round in it. -/
  | treeLink
deriving DecidableEq, Repr

/-- The text of a fault, for those that have one. -/
def Fault.message : Fault → Option String
  | .leftOfImage => some "tilted rectangle extends past the left image border"
  | .pixelCount size => some s!"pixel buffer does not match resolution {size.text}"
  | .scalingFactor factor => some s!"invalid scaling factor {messageText factor}"
  | .coordinateOverflow | .outsideTable | .negativeSum | .treeLink => none

end HaarDetection
