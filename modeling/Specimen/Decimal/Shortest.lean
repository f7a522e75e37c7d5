import Specimen.Binary64.Parts

/-!
# The shortest decimal digits of a double

Every finite double owns the interval of the real numbers that round to it. `shortest x` is the
decimal with the fewest digits inside that interval; of two with the same number of digits it is
the nearer one, and of two equally near ones the one with the even last digit.

For each number of digits from one to seventeen the two points of the decimal grid around `|x|` are
tried. Seventeen digits always suffice, and if any point of a grid lies in the interval, so does one
of the two around `|x|`.
-/

namespace Specimen.Decimal

/-- The digits of a positive decimal and the exponent of its first digit:
`d₁.d₂d₃… * 10 ^ exponent`. -/
structure Scientific where
  digits : List Char
  exponent : Int
deriving DecidableEq

/-- The decimal digits of a number. -/
def digitsOf (n : Nat) : List Char :=
  Nat.toDigits 10 n

/-- The exponent of the first decimal digit of `num / den`, for positive `num` and `den`. -/
def leadingExponent (num den : Nat) : Int :=
  if den ≤ num then (digitsOf (num / den)).length - 1
  else -((digitsOf ((den + num - 1) / num - 1)).length : Int)

/-- The reals between `low / unit` and `high / unit` that round to a double, around the double
`value / unit` itself; the ends belong to it if `closed`. -/
structure RoundingInterval where
  low : Nat
  value : Nat
  high : Nat
  unit : Nat
  closed : Bool

/-- The interval of the finite double `x`, in quarters of the unit of its last place. The gap below
a power of two is half as wide as the gap above it. -/
def roundingInterval (x : Float) : RoundingInterval :=
  let m := Binary64.mantissa x
  let narrow := decide (Binary64.fractionField x = 0 ∧ 1 < Binary64.exponentField x)
  let scale := Nat.pow 2 (Binary64.exponent x).toNat
  { low := (4 * m - if narrow then 1 else 2) * scale
    value := 4 * m * scale
    high := (4 * m + 2) * scale
    unit := 4 * Binary64.denominator x
    closed := decide (m % 2 = 0) }

namespace RoundingInterval

/-- `point * 10 ^ exponent` lies in the interval. -/
def contains (i : RoundingInterval) (point : Nat) (exponent : Int) : Bool :=
  let n := point * Nat.pow 10 exponent.toNat * i.unit
  let d := Nat.pow 10 (-exponent).toNat
  if i.closed then decide (i.low * d ≤ n ∧ n ≤ i.high * d)
  else decide (i.low * d < n ∧ n < i.high * d)

/-- The grid point of `10 ^ exponent` in the interval that is nearest to its double. -/
def nearestPoint? (i : RoundingInterval) (exponent : Int) : Option Nat :=
  let n := i.value * Nat.pow 10 (-exponent).toNat
  let d := i.unit * Nat.pow 10 exponent.toNat
  let below := n / d
  let left := n % d
  match i.contains below exponent, i.contains (below + 1) exponent with
  | true, true =>
      if d < 2 * left ∨ (2 * left = d ∧ below % 2 = 1) then some (below + 1) else some below
  | true, false => some below
  | false, true => some (below + 1)
  | false, false => none

/-- The first hit on the grids with `count`, `count + 1`, … digits, at most `tries` of them. -/
def firstHit (i : RoundingInterval) (leading : Int) : (tries count : Nat) → Nat × Int
  | 0, count => (i.value / i.unit, leading - count + 1)
  | tries + 1, count =>
      match i.nearestPoint? (leading - count + 1) with
      | some point => (point, leading - count + 1)
      | none => firstHit i leading tries (count + 1)

end RoundingInterval

/-- Drops zeros from the end of a list of digits. -/
def dropTrailingZeros (digits : List Char) : List Char :=
  (digits.reverse.dropWhile (· == '0')).reverse

/-- The shortest decimal of a finite double other than zero. -/
def shortest (x : Float) : Scientific :=
  let i := roundingInterval x
  let hit := i.firstHit (leadingExponent i.value i.unit) 17 1
  let digits := digitsOf hit.1
  { digits := dropTrailingZeros digits
    exponent := hit.2 + digits.length - 1 }

end Specimen.Decimal
