import HaarDetection.Image.Buffers

/-!
# Making the tilted table in buffers

A row of the tilted table follows from the two rows above it, so while the table is made it is enough
to keep three rows, with margins, in buffers that are used again and again.

* `TiltedWork.addRow`: the next row, and the buffers exchanged after it.
* `tiltedTableOfBytes`: the tilted table of some bytes.
-/

namespace HaarDetection

/-- The margin on either side of the tilted rows: a triangle of this height reaches no further. -/
def tiltedMargin (height : Nat) : Nat := height + 1

/-- The length of a tilted row with its margins. -/
def paddedWidth (width height : Nat) : Nat := width + 1 + 2 * tiltedMargin height

/-- The tilted table in the making. -/
structure TiltedWork where
  /-- The rows that have been made, without the margins. -/
  table : Array Int
  /-- The row before the last one. -/
  above2 : Array Int
  /-- The last row. -/
  above1 : Array Int
  /-- The buffer for the next row. -/
  row : Array Int

variable (width height : Nat) (bytes : ByteArray)

/-- A pixel anywhere in the plane, zero outside of the image. The bytes of the image are one row after
the other. -/
def pixelAt (x y : Int) : Except Fault Int :=
  if x < 0 ∨ y < 0 ∨ width ≤ x ∨ height ≤ y then .ok 0
  else return (← readByte bytes (y.toNat * width + x.toNat) : Nat)

/-- The value at the place `e` of the next row, where `y` is the row of pixels that comes in. Beyond
the ends of the row above it is taken as zero. -/
def tiltedEntry (y : Nat) (above2 above1 : Array Int) (e : Nat) : Except Fault Int := do
  let x : Int := (e : Int) - tiltedMargin height
  let upLeft ← (if 0 < e then readAt above1 (e - 1) else .ok 0)
  let upRight ← (if e + 1 < paddedWidth width height then readAt above1 (e + 1) else .ok 0)
  let up ← readAt above2 e
  let lower ← pixelAt width height bytes (x - 1) y
  let upper ← pixelAt width height bytes (x - 1) ((y : Int) - 1)
  return upLeft + upRight - up + lower + upper

namespace TiltedWork

/-- The first row of the table is zero, and so are the row above it and all that is not made yet. -/
def blank : TiltedWork where
  table := Array.replicate ((width + 1) * (height + 1)) 0
  above2 := Array.replicate (paddedWidth width height) 0
  above1 := Array.replicate (paddedWidth width height) 0
  row := Array.replicate (paddedWidth width height) 0

/-- The next row, for the row `y` of pixels. Without its margins it is copied to the table; then it is
the last row, and the buffer of the row that is not needed any more is free. -/
def addRow (y : Nat) : TiltedWork → Except Fault TiltedWork
  | ⟨table, above2, above1, row⟩ => do
    let row ← fillFrom 0 (paddedWidth width height)
      (tiltedEntry width height bytes y above2 above1) row
    let table ← fillFrom ((y + 1) * (width + 1)) (width + 1)
      (fun x => readAt row (tiltedMargin height + x)) table
    return ⟨table, above1, row, above2⟩

/-- The work once some rows of pixels have come in. -/
def afterRows (count : Nat) : Except Fault TiltedWork :=
  countUp (addRow width height bytes) count 0 (blank width height)

end TiltedWork

/-- **The tilted table of some bytes** that are taken as an image of a given size. -/
def tiltedTableOfBytes : Except Fault (Array Int) := do
  return (← TiltedWork.afterRows width height bytes height).table

end HaarDetection
