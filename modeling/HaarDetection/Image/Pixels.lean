import HaarDetection.Geometry.Size

/-!
# Gray images

An image is a size and a list of bytes, row after row. Outside of the image every pixel is zero.
-/

namespace HaarDetection

/-- The pixels of an image, as many as its size says. -/
structure Pixels where
  size : Size
  bytes : ByteArray
  size_bytes : bytes.size = size.pixels

namespace Pixels

/-- The number of columns. -/
def width (p : Pixels) : Nat := p.size.width.toNat

/-- The number of rows. -/
def height (p : Pixels) : Nat := p.size.height.toNat

theorem index_lt (p : Pixels) {x y : Nat} (hx : x < p.width) (hy : y < p.height) :
    y * p.width + x < p.bytes.size := by
  rw [p.size_bytes, Size.pixels]
  calc y * p.width + x < y * p.width + p.width := by omega
    _ = (y + 1) * p.width := by rw [Nat.succ_mul]
    _ ≤ p.height * p.width := Nat.mul_le_mul_right _ hy
    _ = p.width * p.height := Nat.mul_comm _ _

/-- The pixel in column `x` and row `y`, zero outside of the image. -/
def pixel (p : Pixels) (x y : Nat) : Nat :=
  if h : x < p.width ∧ y < p.height then
    (p.bytes.get (y * p.width + x) (p.index_lt h.1 h.2)).toNat
  else 0

end Pixels

end HaarDetection
