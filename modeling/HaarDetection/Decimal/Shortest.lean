import HaarDetection.Decimal.Numeral

/-!
# The shortest decimal of a floating-point number

Among all decimals that round to a given floating-point number there is a fewest number of
digits. The decimal written for a number has that many digits and, of those, is nearest to the
number.

The decimals with a given last place are the multiples of a power of ten, a *grid*. A number is
surrounded by the interval of reals that round to it; the coarsest grid with a point in that
interval has the fewest digits, and a point in it is always one of the two neighbours of the
number on the grid. All of this is exact arithmetic on natural numbers.

* `Surrounds`: a number and the interval of reals that round to it.
* `Surrounds.onGrid?`: the point of a grid in the interval nearest to the number.
* `Surrounds.shortest`: the point of the coarsest grid that has one.
-/

namespace HaarDetection

open Float.Model (UnpackedFloat)

/-- Which of two decimals equally near to a number is written. -/
inductive Tie
  /-- The greater one. -/
  | up
  /-- The one with the even last digit. -/
  | even
deriving DecidableEq, Repr

/-- A magnitude `coefficient * 10 ^ exponent`. -/
structure Decimal where
  coefficient : Nat
  exponent : Int
deriving DecidableEq, Repr

/-- A positive number and the interval around it, in quarters of the distance to the next larger
number of its format: `value`, `below` and `above` count units of `2 ^ exponent`. -/
structure Surrounds where
  value : Nat
  below : Nat
  above : Nat
  exponent : Int
  /-- Do the two ends of the interval round to the number as well? -/
  closed : Bool
deriving DecidableEq, Repr

namespace Surrounds

/-- The interval around `mantissa * 2 ^ exponent`. Below a power of two the numbers are twice as
dense, so there the interval ends after a quarter. -/
def ofFinite (format : Float.Model.Format) (mantissa : Nat) (exponent : Int) : Surrounds :=
  let atPower : Bool := mantissa == 1 <<< format.mantissaBitsWithoutImplicit
    && format.minExponent < exponent
  { value := 4 * mantissa
    below := 4 * mantissa - (if atPower then 1 else 2)
    above := 4 * mantissa + 2
    exponent := exponent - 2
    closed := mantissa % 2 == 0 }

/-- A number of units, as a numerator over `denominator` in steps of `10 ^ grid`. -/
def numerator (s : Surrounds) (grid : Int) (units : Nat) : Nat :=
  units <<< s.exponent.toNat * Nat.pow 10 (-grid).toNat

/-- The denominator that belongs to `numerator`. -/
def denominator (s : Surrounds) (grid : Int) : Nat :=
  Nat.pow 10 grid.toNat <<< (-s.exponent).toNat

/-- The nearest multiple of `10 ^ grid` within the interval. -/
def onGrid? (s : Surrounds) (tie : Tie) (grid : Int) : Option Nat :=
  let den := s.denominator grid
  let num := s.numerator grid s.value
  let lower := num / den
  let least := s.numerator grid s.below
  let most := s.numerator grid s.above
  let lowerFits := if s.closed then least ≤ lower * den else least < lower * den
  let upperFits := if s.closed then (lower + 1) * den ≤ most else (lower + 1) * den < most
  if lowerFits then
    if upperFits then
      match compare (2 * num) ((2 * lower + 1) * den) with
      | .lt => some lower
      | .gt => some (lower + 1)
      | .eq =>
        match tie with
        | .up => some (lower + 1)
        | .even => some (lower + lower % 2)
    else some lower
  else if upperFits then some (lower + 1)
  else none

/-- The first of the grids `grid`, `grid - 1`, … with a point in the interval, and that point. -/
def coarsest (s : Surrounds) (tie : Tie) : Nat → Int → Decimal
  | 0, grid => ⟨s.numerator grid s.value / s.denominator grid, grid⟩
  | finer + 1, grid =>
    match s.onGrid? tie grid with
    | some point => ⟨point, grid⟩
    | none => coarsest s tie finer (grid - 1)

/-- **The shortest decimal.** The search begins at a power of ten above the interval
(`0.30103` is a little more than the decimal logarithm of two) and ends within 17 digits, which
tell any two doubles apart. -/
def shortest (s : Surrounds) (tie : Tie) : Decimal :=
  let bits : Int := s.value.log2 + 1 + s.exponent
  s.coarsest tie 24 (Int.fdiv (bits * 30103) 100000 + 1)

end Surrounds

/-- A number that is printed: its sign, and either its shortest decimal or what it is instead. -/
inductive Printed
  | decimal (negative : Bool) (magnitude : Decimal)
  | infinite (negative : Bool)
  | undefined
deriving DecidableEq, Repr

/-- The shortest decimal of an unpacked number. -/
def Printed.ofUnpacked (tie : Tie) (format : Float.Model.Format) : UnpackedFloat → Printed
  | .notANumber => .undefined
  | .infinity sign => .infinite (sign == .negative)
  | .zero sign => .decimal (sign == .negative) ⟨0, 0⟩
  | .finite sign mantissa exponent _ =>
    .decimal (sign == .negative) ((Surrounds.ofFinite format mantissa exponent).shortest tie)

/-- The shortest decimal of a double. -/
def Printed.ofDouble (tie : Tie) (x : Float) : Printed :=
  .ofUnpacked tie .binary64 x.toModel.unpack

/-- The shortest decimal of a single. -/
def Printed.ofSingle (tie : Tie) (x : Float32) : Printed :=
  .ofUnpacked tie .binary32 x.toModel.unpack

end HaarDetection
