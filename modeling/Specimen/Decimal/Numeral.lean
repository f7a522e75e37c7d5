import Specimen.Binary64.Nearest

/-!
# Decimal numerals

The parts of a written decimal number, and the double nearest to it. `numeral?` takes a text apart
that is a number as a whole: a minus sign or none, digits, perhaps a point with digits after it,
perhaps an exponent mark with a signed exponent. The digits after the point may be missing; whoever
does not want that asks for it.
-/

namespace Specimen.Decimal

/-- A number, as it is written. -/
structure Numeral where
  negative : Bool
  whole : List Char
  /-- The digits after the point, if there is a point. -/
  fraction : Option (List Char)
  exponent : Option Int
deriving DecidableEq

/-- The number that a list of decimal digits stands for. -/
def natOfDigits (digits : List Char) : Nat :=
  digits.foldl (fun n c => n * 10 + (c.toNat - '0'.toNat)) 0

/-- The sign of a number: a minus sign or nothing. -/
def splitMinus : List Char → Bool × List Char
  | '-' :: rest => (true, rest)
  | rest => (false, rest)

/-- The sign of an exponent: a minus sign, a plus sign or nothing. -/
def splitSign : List Char → Bool × List Char
  | '-' :: rest => (true, rest)
  | '+' :: rest => (false, rest)
  | rest => (false, rest)

/-- The digits after a point, if there is a point, and what follows them. -/
def splitFraction : List Char → Option (List Char) × List Char
  | '.' :: rest => (some (rest.takeWhile Char.isDigit), rest.dropWhile Char.isDigit)
  | rest => (none, rest)

/-- What stands after the digits: nothing, or an exponent mark with a sign and digits. -/
def exponentPart? : List Char → Option (Option Int)
  | [] => some none
  | c :: rest =>
      let (negative, digits) := splitSign rest
      if (c == 'e' || c == 'E') && !digits.isEmpty && digits.all Char.isDigit then
        let size : Int := natOfDigits digits
        some (some (if negative then -size else size))
      else none

/-- The parts of a text that is a number as a whole. -/
def numeral? (text : List Char) : Option Numeral :=
  let (negative, unsigned) := splitMinus text
  let whole := unsigned.takeWhile Char.isDigit
  let (fraction, rest) := splitFraction (unsigned.dropWhile Char.isDigit)
  if whole.isEmpty then none
  else (exponentPart? rest).map fun exponent => ⟨negative, whole, fraction, exponent⟩

namespace Numeral

/-- The double nearest to a number without its sign; infinity if it is too large. -/
def magnitude (n : Numeral) : Float :=
  let fraction := n.fraction.getD []
  Binary64.ofDecimal (natOfDigits (n.whole ++ fraction)) (n.exponent.getD 0 - fraction.length)

/-- The double nearest to a number. -/
def toFloat (n : Numeral) : Float :=
  if n.negative then -n.magnitude else n.magnitude

end Numeral

end Specimen.Decimal
