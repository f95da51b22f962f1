import HaarDetection.Decimal.Shortest

/-!
# How numbers are laid out

A decimal is written positionally, filled up with zeros, or with one digit before the point and a
power of ten. Messages and documents differ in when they do which.

* `Decimal.positional`, `Decimal.scientific`: the two layouts.
* `messageText`: a single as it stands in a message.
* `documentNumeral?`: a double as it stands in a document.
-/

namespace HaarDetection

namespace Decimal

/-- The digits of the coefficient. -/
def digits (d : Decimal) : List Digit := digitsOf d.coefficient

/-- The exponent of the first digit: the magnitude is `a.bcd… * 10 ^ leading`. -/
def leading (d : Decimal) : Int := d.digits.length - 1 + d.exponent

/-- The digits with the point in its place, a zero before it at least and `whole` after it if
nothing else comes there. -/
def positional (negative : Bool) (d : Decimal) (whole : Option (List Digit)) : Numeral :=
  match d.exponent with
  | .ofNat zeros => ⟨negative, d.digits ++ List.replicate zeros 0, whole, none⟩
  | .negSucc before =>
    let places := before + 1
    let padded := List.replicate (places + 1 - d.digits.length) 0 ++ d.digits
    let point := padded.length - places
    ⟨negative, padded.take point, some (padded.drop point), none⟩

/-- One digit before the point, the others behind it, and a signed power of ten. -/
def scientific (negative : Bool) (d : Decimal) : Numeral :=
  let sign : PowerSign := if d.leading < 0 then .minus else .plus
  let fraction := d.digits.drop 1
  ⟨negative, d.digits.take 1, if fraction.isEmpty then none else some fraction,
    some (sign, digitsOf d.leading.natAbs)⟩

end Decimal

/-- A single in a message: positional whatever its size, and without a point if it is whole. Of
two shortest decimals equally near, the greater one is written. -/
def messageText (x : Float32) : String :=
  match Printed.ofSingle .up x with
  | .undefined => "NaN"
  | .infinite negative => if negative then "-inf" else "inf"
  | .decimal negative d => (d.positional negative none).text

/-- **A double in a document.** Positional with a digit after the point while the exponent of the
first digit is from -5 to 15, and with a power of ten otherwise. Of two shortest decimals equally
near, the even one is written. What is not finite has no numeral. -/
def documentNumeral? (x : Float) : Option Numeral :=
  match Printed.ofDouble .even x with
  | .decimal negative d =>
    if -5 ≤ d.leading ∧ d.leading ≤ 15 then some (d.positional negative (some [0]))
    else some (d.scientific negative)
  | _ => none

end HaarDetection
