/-!
# The exact value of a double

A finite double is `± mantissa * 2 ^ exponent`, read off its bits. `numerator` and `denominator`
write the same value as a quotient of integers, which is what the conversions to integers work on:
`floor`, `ceiling` and `roundAway` are exact for every finite double. On NaN and on the infinities
these functions return numbers without meaning; callers ask `isFinite` first.
-/

namespace Specimen.Binary64

/-- The sixty-four bits of a double as a number. -/
def word (x : Float) : Nat :=
  x.toBits.toNat

/-- How many fractions there are: they have fifty-two bits. -/
def fractionCount : Nat := 4503599627370496

/-- The sign bit is set. -/
def isNegative (x : Float) : Bool :=
  decide (UInt64.size / 2 ≤ word x)

/-- The eleven bits of the exponent field. -/
def exponentField (x : Float) : Nat :=
  word x / fractionCount % 2048

/-- The fifty-two bits of the fraction field. -/
def fractionField (x : Float) : Nat :=
  word x % fractionCount

/-- The significand as an integer: the fraction, with the hidden bit unless `x` is subnormal. -/
def mantissa (x : Float) : Nat :=
  if exponentField x = 0 then fractionField x else fractionCount + fractionField x

/-- The power of two that the mantissa is multiplied by. -/
def exponent (x : Float) : Int :=
  (max 1 (exponentField x) : Nat) - 1075

/-- The numerator of `|x|` over `denominator x`. -/
def magnitude (x : Float) : Nat :=
  mantissa x * Nat.pow 2 (exponent x).toNat

/-- The numerator of `x` over `denominator x`. -/
def numerator (x : Float) : Int :=
  if isNegative x then -(magnitude x : Int) else magnitude x

/-- A power of two by which `x` becomes an integer. -/
def denominator (x : Float) : Nat :=
  Nat.pow 2 (-exponent x).toNat

theorem denominator_pos (x : Float) : 0 < denominator x :=
  Nat.pow_pos (by decide)

/-- The greatest integer that is at most `x`. -/
def floor (x : Float) : Int :=
  numerator x / denominator x

/-- The least integer that is at least `x`. -/
def ceiling (x : Float) : Int :=
  -(-numerator x / denominator x)

/-- The integer nearest to `|x|`, a half going up. -/
def roundedMagnitude (x : Float) : Nat :=
  (2 * magnitude x + denominator x) / (2 * denominator x)

theorem floor_mul_le (x : Float) : floor x * denominator x ≤ numerator x := by
  have hpos : (denominator x : Int) ≠ 0 := by
    have := denominator_pos x
    omega
  exact Int.ediv_mul_le _ hpos

theorem lt_floor_add_one_mul (x : Float) :
    numerator x < (floor x + 1) * denominator x := by
  have hpos : (0 : Int) < denominator x := by
    have := denominator_pos x
    omega
  exact Int.lt_ediv_add_one_mul_self _ hpos

theorem le_ceiling_mul (x : Float) : numerator x ≤ ceiling x * denominator x := by
  have hpos : (denominator x : Int) ≠ 0 := by
    have := denominator_pos x
    omega
  have := Int.ediv_mul_le (-numerator x) hpos
  simp only [ceiling, Int.neg_mul]
  omega

end Specimen.Binary64
