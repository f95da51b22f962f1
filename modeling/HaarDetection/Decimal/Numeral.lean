import HaarDetection.Number.Convert

/-!
# Decimal numerals

A numeral is a number as it is written: a sign, whole digits, and perhaps a fraction and a power
of ten. Documents hold numbers in this form, and messages print them in it.

* `Numeral.text`: the characters of a numeral.
* `Numeral.toNat?`, `Numeral.toInt?`: the integer that a numeral without fraction and power stands
  for, if it fits in 64 bits.
* `Numeral.toFloat?`, `Numeral.toSingle?`: the floating-point value of a numeral.

Reading a value takes as many leading digits as fit in 64 bits and drops the others. The digits
taken become a double, which is multiplied with or divided by the power of ten that remains. So a
numeral of at most 15 digits and a small power of ten has the double nearest to it as its value.
-/

namespace HaarDetection

/-- A decimal digit. -/
abbrev Digit := Fin 10

/-- The character of a digit. -/
def Digit.char (d : Digit) : Char := Char.ofNat (48 + d.val)

/-- The digit that a character shows. -/
def Digit.ofChar? (c : Char) : Option Digit :=
  if h : 48 ≤ c.toNat ∧ c.toNat < 58 then some ⟨c.toNat - 48, by omega⟩ else none

/-- The digits of a natural number, the most significant first, put before `rest`. -/
def digitsBefore (n : Nat) (rest : List Digit) : List Digit :=
  let last : Digit := ⟨n % 10, Nat.mod_lt n (by decide)⟩
  if n < 10 then last :: rest else digitsBefore (n / 10) (last :: rest)
termination_by n
decreasing_by omega

/-- The digits of a natural number, the most significant first. -/
def digitsOf (n : Nat) : List Digit := digitsBefore n []

/-- The natural number that some digits stand for. -/
def natOfDigits (ds : List Digit) : Nat := ds.foldl (fun n d => 10 * n + d.val) 0

/-- How the power of ten of a numeral is signed. -/
inductive PowerSign
  | unsigned
  | plus
  | minus
deriving DecidableEq, Repr

/-- A number as it is written. -/
structure Numeral where
  /-- Is there a minus sign in front? -/
  negative : Bool
  /-- The digits before the point. -/
  whole : List Digit
  /-- The digits after the point, if there is one. -/
  fraction : Option (List Digit)
  /-- The power of ten, if one is written. -/
  power : Option (PowerSign × List Digit)
deriving DecidableEq, Repr

namespace Numeral

/-- The numeral of an integer. -/
def ofInt (z : Int) : Numeral := ⟨z < 0, digitsOf z.natAbs, none, none⟩

/-- The characters of a numeral. -/
def chars (n : Numeral) : List Char :=
  (if n.negative then ['-'] else []) ++ n.whole.map Digit.char
    ++ (match n.fraction with
        | none => []
        | some ds => '.' :: ds.map Digit.char)
    ++ (match n.power with
        | none => []
        | some (sign, ds) =>
          'e' :: ((match sign with
            | .unsigned => []
            | .plus => ['+']
            | .minus => ['-']) ++ ds.map Digit.char))

/-- The text of a numeral. -/
def text (n : Numeral) : String := String.ofList n.chars

/-- Appends leading digits to a number while the result fits in 64 bits; gives the number and how
many digits were taken. -/
def gather (n : Nat) : List Digit → Nat × Nat
  | [] => (n, 0)
  | d :: ds =>
    if 10 * n + d.val < UInt64.size then
      let (m, taken) := gather (10 * n + d.val) ds
      (m, taken + 1)
    else (n, 0)

/-- The leading digits of a numeral as a number, and the power of ten to multiply it with. -/
def scaled (n : Numeral) : Nat × Int :=
  let (whole, taken) := gather 0 n.whole
  let (digits, shifted) := gather whole (n.fraction.getD [])
  let power : Int :=
    match n.power with
    | none => 0
    | some (.minus, ds) => -(natOfDigits ds : Int)
    | some (_, ds) => natOfDigits ds
  (digits, (n.whole.length - taken : Nat) - (shifted : Int) + power)

/-- The double nearest to a power of ten. -/
def powerOfTen (n : Nat) : Float := .ofScientific 1 false n

/-- The magnitude of a numeral as a double: none when it is too large for one. Magnitudes below
`10 ^ -616` vanish. -/
def magnitude? (n : Numeral) : Option Float :=
  let (digits, power) := n.scaled
  let base := digits.toUInt64.toFloat
  match power with
  | .ofNat up =>
    if digits = 0 then some base
    else if 308 < up then none
    else
      let value := base * powerOfTen up
      if value.isInf then none else some value
  | .negSucc before =>
    let down := before + 1
    if down ≤ 308 then some (base / powerOfTen down)
    else if down ≤ 616 then some (base / powerOfTen 308 / powerOfTen (down - 308))
    else some 0

/-- The value of a numeral in double precision, none when it is too large. -/
def toFloat? (n : Numeral) : Option Float :=
  n.magnitude?.map fun value => if n.negative then -value else value

/-- Is the numeral written without a fraction and without a power of ten? -/
def isPlain (n : Numeral) : Bool := n.fraction.isNone && n.power.isNone

/-- The natural number of 64 bits that a numeral stands for. A minus sign makes it none, also
before a zero. -/
def toNat? (n : Numeral) : Option Nat :=
  let value := natOfDigits n.whole
  if n.isPlain && !n.negative && value < UInt64.size then some value else none

/-- The integer of 64 bits, with a sign, that a numeral stands for. There is no integer `-0`. -/
def toInt? (n : Numeral) : Option Int :=
  let value := natOfDigits n.whole
  if !n.isPlain then none
  else if n.negative then
    if 0 < value ∧ value ≤ 0x8000000000000000 then some (-value) else none
  else if value < 0x8000000000000000 then some value else none

/-- The value of a numeral in single precision, infinite when it is too large for a single but
not for a double. An integer of 64 bits is rounded once, any other number over a double. -/
def toSingle? (n : Numeral) : Option Float32 :=
  match n.toNat?, n.toInt? with
  | some value, _ => some value.toUInt64.toFloat32
  | none, some value => some (-value.natAbs.toUInt64.toFloat32)
  | none, none => n.toFloat?.map narrow

end Numeral

end HaarDetection
