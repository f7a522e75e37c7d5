import Specimen.Decimal.Numeral

/-!
# The doubles of a JSON document

A number of a document is made a double in two steps, each of which rounds. Its digits are
collected in a significand of sixty-four bits (`keepDigits`), the significand is rounded to a
double, and that is multiplied with a power of ten or divided by one (`scaled`). So the result is
near the number, but not always the double nearest to it: `Decimal.Numeral.toFloat` rounds once.
-/

namespace Specimen.Json

open Decimal (Numeral)

/-- The greatest significand. -/
def greatestSignificand : Nat := UInt64.size - 1

/-- Puts digits behind a significand up to the first one that makes it too large. The answer is the
significand, and how many digits are left. -/
def keepDigits (significand : Nat) : List Char → Nat × Nat
  | [] => (significand, 0)
  | c :: digits =>
      let longer := significand * 10 + (c.toNat - '0'.toNat)
      if greatestSignificand < longer then (significand, digits.length + 1)
      else keepDigits longer digits

/-- The exponent of the greatest power of ten that is a double. -/
def greatestPower : Nat := 308

/-- The double nearest to a power of ten. -/
def power (exponent : Nat) : Float :=
  Binary64.ofQuotient (Nat.pow 10 exponent) 1

/-- `x` divided by the greatest power of ten several times. Nothing is left to do for a zero. -/
def dividedRepeatedly (x : Float) : (times : Nat) → Float
  | 0 => x
  | times + 1 => if x == 0 then x else dividedRepeatedly (x / power greatestPower) times

/-- A significand times a power of ten. Where the power is too small for a double, the greatest one
is divided by first; where it is too large, only zero has a result that is finite. -/
def scaled (significand : Nat) (exponent : Int) : Float :=
  let start := Binary64.ofQuotient significand 1
  if 0 ≤ exponent then
    if exponent ≤ greatestPower ∨ significand = 0 then
      start * power (min exponent.toNat greatestPower)
    else Float.ofBits (UInt64.ofNat Binary64.infinityWord)
  else
    let places := exponent.natAbs
    let times := (places - 1) / greatestPower
    dividedRepeatedly start times / power (places - times * greatestPower)

/-- The double that a number is read as; infinity if it is too large. Digits of the whole part that
are left over count for the exponent, and so does every digit after the point that is kept. -/
def readDouble (n : Numeral) : Float :=
  let fraction := n.fraction.getD []
  let (whole, beyond) := keepDigits 0 n.whole
  let (significand, dropped) := keepDigits whole fraction
  let exponent : Int := n.exponent.getD 0 + beyond - (fraction.length - dropped : Nat)
  let size := scaled significand exponent
  if n.negative then -size else size

/-- The double nearest to this number is the one before. -/
example : readDouble ⟨false, ['0'], some "9452706955539223".toList, none⟩
    = Float.ofBits 0x3FEE3FA85468AE3D := by
  decide +kernel

end Specimen.Json
