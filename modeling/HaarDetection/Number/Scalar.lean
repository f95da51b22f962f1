import HaarDetection.Number.Convert

/-!
# The arithmetic of weights and sums

Weights, thresholds, pixel sums and the deviation of a window are *scalars*. A search computes
them in double precision; nothing in the evaluation of a cascade or in the averaging of detections
depends on that, so everything is written for any type of scalars, exact ones included.

* `Scalar`: the operations that an evaluation needs.
* `Scalar.sum`: the sum of a list, from the left.
-/

namespace HaarDetection

/-- A type of numbers to evaluate a cascade in. The comparisons are tests, as a threshold is
always compared to decide between two ways. -/
class Scalar (α : Type) extends Add α, Sub α, Mul α, Div α, Neg α where
  /-- The value of an integer. -/
  ofInt : Int → α
  /-- The value of a single-precision number. -/
  ofSingle : Float32 → α
  /-- Is the first number smaller than the second? -/
  lt : α → α → Bool
  /-- Is the first number at most the second? -/
  le : α → α → Bool
  /-- The square root of a positive number. -/
  sqrt : α → α
  /-- Does the value stand for a real number, neither infinite nor undefined? -/
  isFinite : α → Bool
  /-- Is the value no number at all? -/
  isUndefined : α → Bool
  /-- The nearest integer between two bounds, halves away from zero. -/
  nearestWithin : Int → Int → α → Int

namespace Scalar

variable {α : Type} [Scalar α]

/-- The number zero. -/
def zero : α := ofInt 0

/-- The number one. -/
def one : α := ofInt 1

/-- The value of a natural number. -/
@[inline]
def ofNat (n : Nat) : α := ofInt n

/-- The sum of a list, added up from the left, beginning with zero. -/
def sum (xs : List α) : α := xs.foldl (· + ·) zero

end Scalar

/-- The double nearest to a natural number. -/
def doubleOfNat (n : Nat) : Float :=
  if n < UInt64.size then n.toUInt64.toFloat else .ofNat n

/-- The single nearest to a natural number. -/
def singleOfNat (n : Nat) : Float32 :=
  if n < UInt64.size then n.toUInt64.toFloat32 else .ofNat n

/-- The double nearest to an integer. -/
def doubleOfInt (z : Int) : Float :=
  if z < 0 then -doubleOfNat z.natAbs else doubleOfNat z.natAbs

instance : Scalar Float where
  ofInt := doubleOfInt
  ofSingle := widen
  lt := Float.lt
  le := Float.le
  sqrt := Float.sqrt
  isFinite := Float.isFinite
  isUndefined := Float.isNaN
  nearestWithin := nearestWithin

end HaarDetection
