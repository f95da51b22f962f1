import HaarDetection.Classifier
import HaarDetection.Search.Options

/-!
# Schedules of scales

A search goes from scale to scale by a constant factor, up from the smallest window or down from
the largest one, as long as the window stays between a least and a greatest size.

* `Schedule.start`, `Schedule.after`: the first scale, and the scale after another.
* `Schedule.take`: the leading scales of a schedule.
* `Schedule.scales`: all of them.
-/

namespace HaarDetection

/-- The greater of two numbers; the other one, if one is undefined. -/
def greaterSingle (a b : Float32) : Float32 :=
  if a.isNaN then b else if b.isNaN then a else if a.lt b then b else a

/-- The smaller of two numbers; the other one, if one is undefined. -/
def smallerSingle (a b : Float32) : Float32 :=
  if a.isNaN then b else if b.isNaN then a else if b.lt a then b else a

/-- The scales for windows of a base size, between two sizes. -/
structure Schedule where
  base : Size
  min : Size
  max : Size
  factor : Float32
  mode : ScalingMode
deriving DecidableEq

namespace Schedule

/-- A schedule whose factor is a finite number above one. -/
def build (base min max : Size) (factor : Float32) (mode : ScalingMode) :
    Except Fault Schedule :=
  if factor.isFinite && Float32.lt 1 factor then .ok ⟨base, min, max, factor, mode⟩
  else .error (.scalingFactor factor)

/-- The ratio of two lengths in pixels. -/
def ratio (length base : UInt32) : Float32 := length.toFloat32 / base.toFloat32

/-- The first scale: the least at which the window has room for the least size, or the greatest
at which the greatest size has room for the window. -/
def start (s : Schedule) : Float32 :=
  match s.mode with
  | .smallerToGreater =>
    greaterSingle (ratio s.min.width s.base.width) (ratio s.min.height s.base.height)
  | .greaterToSmaller =>
    smallerSingle (ratio s.max.width s.base.width) (ratio s.max.height s.base.height)

/-- The scale after another one. -/
def after (s : Schedule) (scale : Float32) : Float32 :=
  match s.mode with
  | .smallerToGreater => scale * s.factor
  | .greaterToSmaller => scale / s.factor

/-- Is the window at a scale of a size that is to be searched? -/
def admits (s : Schedule) (scale : Float32) : Bool :=
  decide (s.max.Fits (s.base.scale scale)) && decide ((s.base.scale scale).Fits s.min)

/-- At most `limit` scales from `scale` on, up to the first one that is not to be searched, behind
those in `found`. -/
def takeFrom (s : Schedule) : (limit : Nat) → (scale : Float32) → (found : List Float32) →
    List Float32
  | 0, _, found => found.reverse
  | limit + 1, scale, found =>
    if s.admits scale then takeFrom s limit (s.after scale) (scale :: found) else found.reverse

/-- The first `limit` scales. -/
def take (s : Schedule) (limit : Nat) : List Float32 := s.takeFrom limit s.start []

/-- **All scales.** There are no more than `2 ^ 32` numbers of single precision. -/
def scales (s : Schedule) : List Float32 := s.take UInt32.size

end Schedule

end HaarDetection
