import HaarDetection.Image.Pixels
import HaarDetection.Image.Query
import HaarDetection.Image.TiltedBuffers
import HaarDetection.Image.UprightBuffers
import HaarDetection.Number.Scalar

/-!
# Integral images

Tables of sums from which the sum over any rectangle follows by looking up its four corners.
Entry `(X, Y)` of the upright tables adds up all pixels above row `Y` and left of column `X`.
Entry `(X, Y)` of the tilted table adds up the triangle of pixels that widens upwards from the
corner `(X, Y)`: those `(x, y)` with `y < Y` and `|x - X + 1| ≤ Y - y - 1`.

* `sumTable`: the upright table of a function of the pixels, row by row.
* `tiltedTable`: the table of triangles, from a recurrence over the two rows above.
* `IntegralImage.ofPixels`: the tables of an image.
* `IntegralImage.ofBytes`: the same from bytes, with the tables made in buffers.
* `IntegralImage.lookup`: the exact answer to a query.
* `IntegralImage.source`: an integral image as a search sees it.
-/

namespace HaarDetection

/-- The row `row`, the row after it, and so on: `count` rows follow the first, and row `y + 1`
comes from row `y` by `next y`. -/
def rowsFrom {β : Type} (next : Nat → β → β) : (count y : Nat) → β → List β
  | 0, _, row => [row]
  | count + 1, y, row => row :: rowsFrom next count (y + 1) (next y row)

/-- The sums of `0, 1, …, n` leading values of `f`. -/
def runningSums (f : Nat → Nat) (n : Nat) : Array Nat :=
  (Nat.fold n (fun x _ (sums, total) => (sums.push (total + f x), total + f x))
    (#[0], (0 : Nat))).1

/-- The upright table of `value x y` over a `width` by `height` image, with a row and a column of
zeros in front. -/
def sumTable (width height : Nat) (value : Nat → Nat → Nat) : Array Nat :=
  let next (y : Nat) (above : Array Nat) : Array Nat :=
    Array.zipWith (· + ·) above (runningSums (value · y) width)
  ((rowsFrom next height 0 (Array.replicate (width + 1) 0)).map Array.toList).flatten.toArray

/-- A row of the tilted table and the row above it, both with columns beyond the two borders. -/
structure TiltedRows where
  row : Array Int
  above : Array Int

/-- The row after `rows`, where `value` is the image and `y` the row of pixels that comes in. Two
triangles of the row before cover the triangle but for two pixels, and overlap in a triangle of
the row before that. -/
def TiltedRows.next (margin : Nat) (value : Int → Int → Int) (y : Nat) (rows : TiltedRows) :
    TiltedRows :=
  let row := Array.ofFn (n := rows.row.size) fun i =>
    let column : Int := (i.val : Int) - margin - 1
    let upLeft := if i.val = 0 then 0 else rows.row.getD (i.val - 1) 0
    let upRight := rows.row.getD (i.val + 1) 0
    upLeft + upRight - rows.above.getD i.val 0 + value column y + value column ((y : Int) - 1)
  ⟨row, rows.row⟩

/-- The tilted table of an image, without the margins. -/
def tiltedTable (width height : Nat) (value : Int → Int → Int) : Array Int :=
  let margin := tiltedMargin height
  let blank : Array Int := Array.replicate (width + 1 + 2 * margin) 0
  let rows := rowsFrom (TiltedRows.next margin value) height 0 ⟨blank, blank⟩
  (rows.map fun r => (r.row.extract margin (margin + width + 1)).toList).flatten.toArray

/-- The tables of an image. -/
structure IntegralImage where
  size : Size
  sums : Array Nat
  squares : Array Nat
  tilted : Array Int

namespace IntegralImage

/-- A pixel anywhere in the plane, zero outside of the image. -/
def plane (p : Pixels) (x y : Int) : Int :=
  if 0 ≤ x ∧ 0 ≤ y then p.pixel x.toNat y.toNat else 0

/-- The tables of an image. -/
@[inline]
def ofPixels (p : Pixels) : IntegralImage where
  size := p.size
  sums := sumTable p.width p.height p.pixel
  squares := sumTable p.width p.height fun x y => p.pixel x y * p.pixel x y
  tilted := tiltedTable p.width p.height (plane p)

/-- The tables of some bytes taken as an image of a given size. -/
def ofBytes (size : Size) (bytes : ByteArray) : Except Fault IntegralImage :=
  if bytes.size = size.pixels then do
    let (sums, squares) ← uprightTablesOfBytes size.width.toNat size.height.toNat bytes
    let tilted ← tiltedTableOfBytes size.width.toNat size.height.toNat bytes
    return { size, sums, squares, tilted }
  else .error (.pixelCount size)

variable (image : IntegralImage)

/-- The entry of a table for the corner `(x, y)`. A table is one row after the other, so a corner
right of the image is found at the start of the next row. -/
def entry {β : Type} (table : Array β) (x y : Nat) : Except Fault β :=
  match table[y * (image.size.width.toNat + 1) + x]? with
  | some value => .ok value
  | none => .error .outsideTable

/-- A coordinate that has to fit in 32 bits. -/
def coordinate (n : Nat) : Except Fault Nat :=
  if n < UInt32.size then .ok n else .error .coordinateOverflow

/-- The sum over an upright rectangle, from the four corners in an upright table. -/
def uprightSum (table : Array Nat) (x y width height : Nat) : Except Fault Nat := do
  let right ← coordinate (x + width)
  let bottom ← coordinate (y + height)
  let a ← image.entry table x y
  let b ← image.entry table right y
  let c ← image.entry table x bottom
  let d ← image.entry table right bottom
  if a + d < b + c then .error .negativeSum else .ok (a + d - (b + c))

/-- The sum over a tilted rectangle, from its four corners in the tilted table. -/
def tiltedSum (x y width height : Nat) : Except Fault Int := do
  if x < height then .error .leftOfImage
  let left := x - height
  let a ← image.entry image.tilted x y
  let b ← image.entry image.tilted left (← coordinate (y + height))
  let c ← image.entry image.tilted (← coordinate (x + width)) (← coordinate (y + width))
  let d ← image.entry image.tilted (left + width) (← coordinate (y + width + height))
  .ok (a - b - c + d)

/-- **The exact answer to a query.** -/
def lookup (q : Query) : Except Fault Int :=
  match q.kind with
  | .sum => Int.ofNat <$> image.uprightSum image.sums q.x q.y q.width q.height
  | .squares => Int.ofNat <$> image.uprightSum image.squares q.x q.y q.width q.height
  | .tilted => image.tiltedSum q.x q.y q.width q.height

/-- The image as a search sees it, with sums of the type `α`. -/
def source (α : Type) [Scalar α] : Source α where
  size := image.size
  answer q := Scalar.ofInt <$> image.lookup q

end IntegralImage

end HaarDetection
