import HaarDetection.Image.Buffers

/-!
# Making the upright tables in buffers

The sums of the pixels and of their squares are made in one go over the pixels, row after row. The entry
below and right of a pixel is the one above it and the sum over the pixels of the row so far.

* `UprightWork.addPixel`: the two entries for a pixel.
* `UprightWork.addRow`: those for a row of pixels.
* `uprightTablesOfBytes`: the two tables of some bytes.
-/

namespace HaarDetection

/-- The upright tables in the making. -/
structure UprightWork where
  /-- The sums over the pixels. -/
  sums : Array Nat
  /-- The sums over their squares. -/
  squares : Array Nat
  /-- The sum over the pixels of the row so far. -/
  rowSum : Nat
  /-- The sum over their squares. -/
  rowSquares : Nat

variable (width height : Nat) (bytes : ByteArray)

namespace UprightWork

/-- All entries are zero before the first row of pixels. -/
def blank : UprightWork where
  sums := Array.replicate ((width + 1) * (height + 1)) 0
  squares := Array.replicate ((width + 1) * (height + 1)) 0
  rowSum := 0
  rowSquares := 0

/-- One more pixel, in column `x` of the row `y`. -/
def addPixel (y x : Nat) : UprightWork → Except Fault UprightWork
  | ⟨sums, squares, rowSum, rowSquares⟩ => do
    let pixel ← readByte bytes (y * width + x)
    let rowSum := rowSum + pixel
    let rowSquares := rowSquares + pixel * pixel
    let place := (y + 1) * (width + 1) + (x + 1)
    let above ← readAt sums (place - (width + 1))
    let sums ← writeAt sums place (above + rowSum)
    let above ← readAt squares (place - (width + 1))
    let squares ← writeAt squares place (above + rowSquares)
    return ⟨sums, squares, rowSum, rowSquares⟩

/-- One more row of pixels. -/
def addRow (y : Nat) (work : UprightWork) : Except Fault UprightWork :=
  countUp (addPixel width bytes y) width 0 { work with rowSum := 0, rowSquares := 0 }

/-- The work once some rows of pixels have come in. -/
def afterRows (count : Nat) : Except Fault UprightWork :=
  countUp (addRow width bytes) count 0 (blank width height)

end UprightWork

/-- **The upright tables of some bytes** that are taken as an image of a given size: the sums of the
pixels and those of their squares. -/
def uprightTablesOfBytes : Except Fault (Array Nat × Array Nat) := do
  let work ← UprightWork.afterRows width height bytes height
  return (work.sums, work.squares)

end HaarDetection
