import Specimen.Binary64.Parts

/-!
# The double nearest to a quotient

`nearestWord num den` holds the bits of the double nearest to `num / den`, a tie going to the even
mantissa. The quotient is scaled by a power of two until it has fifty-three bits, or until the
scale is the smallest one, and is then rounded to an integer `q`. With the biased scale `k` the
word is `k * 2 ^ 52 + q`: when rounding carries `q` up to `2 ^ 53`, the sum carries into the
exponent field by itself. A word at or above the word of infinity stands for an overflow.
-/

namespace Specimen.Binary64

/-- The word of positive infinity. -/
def infinityWord : Nat :=
  2047 * fractionCount

/-- The integer nearest to `num / den`, a tie going to the even neighbour. -/
def roundHalfEven (num den : Nat) : Nat :=
  let below := num / den
  let left := num % den
  if den < 2 * left ∨ (2 * left = den ∧ below % 2 = 1) then below + 1 else below

/-- The numerator and denominator of `num / den * 2 ^ (-scale)`. -/
def rescale (num den : Nat) (scale : Int) : Nat × Nat :=
  (num * Nat.pow 2 (-scale).toNat, den * Nat.pow 2 scale.toNat)

/-- The scale at which `num / den` has fifty-three bits before the point, but at least `-1074`. -/
def scaleOf (num den : Nat) : Int :=
  let guess : Int := (num.log2 : Int) - den.log2 - 52
  let scaled := rescale num den guess
  max (-1074) (if scaled.1 / scaled.2 < fractionCount then guess - 1 else guess)

/-- The word of the double nearest to `num / den`; infinity if that is too large. -/
def nearestWord (num den : Nat) : Nat :=
  if num = 0 then 0
  else
    let scale := scaleOf num den
    let scaled := rescale num den scale
    min infinityWord ((scale + 1074).toNat * fractionCount + roundHalfEven scaled.1 scaled.2)

/-- The double nearest to `num / den`. -/
def ofQuotient (num den : Nat) : Float :=
  Float.ofBits (UInt64.ofNat (nearestWord num den))

/-- The double nearest to an integer. -/
def ofInt (n : Int) : Float :=
  if n < 0 then -(ofQuotient n.natAbs 1) else ofQuotient n.natAbs 1

/-- The double nearest to `digits * 10 ^ exponent`. The two early answers only spare the powers of
ten that are far outside the range of a double. -/
def ofDecimal (digits : Nat) (exponent : Int) : Float :=
  if digits = 0 then ofQuotient 0 1
  else if 310 < exponent then Float.ofBits (UInt64.ofNat infinityWord)
  else if exponent < -(330 + digits.log2 : Int) then ofQuotient 0 1
  else ofQuotient (digits * Nat.pow 10 exponent.toNat) (Nat.pow 10 (-exponent).toNat)

/-- `x` rounded to an integer, a half going away from zero; the sign of `x` stays, also on a
zero. -/
def round (x : Float) : Float :=
  if 0 ≤ exponent x then x
  else if isNegative x then -(ofQuotient (roundedMagnitude x) 1)
  else ofQuotient (roundedMagnitude x) 1

end Specimen.Binary64
