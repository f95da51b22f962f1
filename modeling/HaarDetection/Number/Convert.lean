/-!
# Conversions between the two binary formats

Pixel sums and weights are held in double precision, scales in single precision. Both are read
here through the unpacked form of a floating-point number: an infinity, a zero, no number, or a
sign with a mantissa and a power of two.

* `reformat`: the nearest value of another format, ties to the even mantissa.
* `widen`, `narrow`: from single to double precision, and back.
* `nearestWithin`: the nearest integer of a double, halves away from zero, kept within bounds.
-/

namespace HaarDetection

open Float.Model (UnpackedFloat)

/-- The nearest value of `format`, ties to the even mantissa. A value beyond the largest finite
one becomes infinite when it is packed. -/
def reformat (format : Float.Model.Format) : UnpackedFloat → UnpackedFloat
  | .finite sign mantissa exponent _ => .round format sign mantissa exponent
  | special => special

/-- The double with the value of a single. Every single is a double, so nothing is rounded. -/
def widen (x : Float32) : Float :=
  .ofModel (.pack (reformat .binary64 x.toModel.unpack))

/-- The single nearest to a double. -/
def narrow (x : Float) : Float32 :=
  .ofModel (.pack (reformat .binary32 x.toModel.unpack))

/-- The natural number nearest to `mantissa * 2 ^ exponent`, a half rounded up. -/
def roundHalfUp (mantissa : Nat) : Int → Nat
  | .ofNat up => mantissa <<< up
  | .negSucc down => (mantissa + 1 <<< down) >>> (down + 1)

/-- The integer of `lo .. hi` nearest to `z`. -/
def clamp (lo hi z : Int) : Int := max lo (min hi z)

/-- **Rounding a double to an integer.** The nearest integer, halves away from zero, moved to the
nearer bound when it lies outside of `lo .. hi`; what is no number counts as zero. -/
def nearestWithin (lo hi : Int) (x : Float) : Int :=
  match x.toModel.unpack with
  | .notANumber => 0
  | .infinity .negative => lo
  | .infinity .positive => hi
  | .zero _ => clamp lo hi 0
  | .finite sign mantissa exponent _ =>
    clamp lo hi (sign.apply (roundHalfUp mantissa exponent))

end HaarDetection
